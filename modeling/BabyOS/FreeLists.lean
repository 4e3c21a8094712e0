import BabyOS.HeapCalls
import BabyOS.LinkedLists

/-!
# The free lists of any heap

Heaps with allocated and free blocks in any order, and lists that hold the free
blocks by their classes. Headers are the words 8 below the blocks, links the first
two words of free blocks.
-/

set_option autoImplicit false

namespace BabyOS.FreeLists
open BabyOS.ByteWords BabyOS.HeapMachine BabyOS.HeapBlocks BabyOS.LinkedLists

/-! ## Blocks up to the break -/

structure Piece where
  start : ℕ
  size : ℕ
  alloc : Bool
deriving DecidableEq

/-- The blocks from `p` up to `t`, the first behind one that is allocated or not, and
so for what lies at `t`. -/
def Tiled (h : Heap) : ℕ → Bool → List Piece → ℕ → Bool → Prop
  | p, prev, [], t, last => p = t ∧ prev = last
  | p, prev, b :: bs, t, last => b.start = p ∧ 16 ∣ b.size ∧ 32 ≤ b.size ∧
      get h (hdrp p) = pack b.size prev b.alloc ∧ Tiled h (p+b.size) b.alloc bs t last

section Tiling

variable {h h' : Heap} {p t : ℕ} {prev last : Bool} {bs cs : List Piece}

theorem Tiled.le (ht : Tiled h p prev bs t last) : p ≤ t := by
  induction bs generalizing p prev with
  | nil => exact ht.1.le
  | cons b bs ih =>
    have hle := ih ht.2.2.2.2
    omega

theorem tiled_append : Tiled h p prev (bs++cs) t last ↔
    ∃ m mid, Tiled h p prev bs m mid ∧ Tiled h m mid cs t last := by
  induction bs generalizing p prev with
  | nil =>
    constructor
    · exact fun ht => ⟨p, prev, ⟨rfl, rfl⟩, ht⟩
    · rintro ⟨m, mid, ⟨rfl, rfl⟩, ht⟩
      exact ht
  | cons b bs ih =>
    constructor
    · rintro ⟨hs, hdvd, hge, htag, hrest⟩
      obtain ⟨m, mid, hleft, hright⟩ := ih.mp hrest
      exact ⟨m, mid, ⟨hs, hdvd, hge, htag, hleft⟩, hright⟩
    · rintro ⟨m, mid, ⟨hs, hdvd, hge, htag, hleft⟩, hright⟩
      exact ⟨hs, hdvd, hge, htag, ih.mpr ⟨m, mid, hleft, hright⟩⟩

/-- What a block of the heap says. -/
theorem Tiled.mem (ht : Tiled h p prev bs t last) {b : Piece} (hb : b ∈ bs) :
    p ≤ b.start ∧ b.start+b.size ≤ t ∧ 32 ≤ b.size ∧ 16 ∣ b.size ∧
      ∃ before, get h (hdrp b.start) = pack b.size before b.alloc := by
  induction bs generalizing p prev with
  | nil => cases hb
  | cons d bs ih =>
    have ⟨hs, hdvd, hge, htag, hrest⟩ := ht
    rcases List.mem_cons.mp hb with rfl | hb
    · rw [hs]
      exact ⟨le_rfl, hrest.le, hge, hdvd, prev, htag⟩
    · have ⟨hle, hfacts⟩ := ih hrest hb
      exact ⟨by omega, hfacts⟩

theorem Tiled.aligned (ht : Tiled h p prev bs t last) (hp : 16 ∣ p) :
    16 ∣ t ∧ ∀ b ∈ bs, 16 ∣ b.start := by
  induction bs generalizing p prev with
  | nil => exact ⟨ht.1 ▸ hp, fun b hb => by cases hb⟩
  | cons d bs ih =>
    have ⟨hs, hdvd, _, _, hrest⟩ := ht
    have ⟨hend, hin⟩ := ih hrest (dvd_add hp hdvd)
    refine ⟨hend, fun b hb => ?_⟩
    rcases List.mem_cons.mp hb with rfl | hb
    · rw [hs]
      exact hp
    · exact hin b hb

/-- Blocks do not overlap. -/
theorem Tiled.apart (ht : Tiled h p prev bs t last) {b d : Piece} (hb : b ∈ bs) (hd : d ∈ bs) :
    b = d ∨ b.start+b.size ≤ d.start ∨ d.start+d.size ≤ b.start := by
  induction bs generalizing p prev with
  | nil => cases hb
  | cons e bs ih =>
    have ⟨hs, _, _, _, hrest⟩ := ht
    rcases List.mem_cons.mp hb with hbe | hb' <;> rcases List.mem_cons.mp hd with hde | hd'
    · exact .inl (hbe.trans hde.symm)
    · have hle := (hrest.mem hd').1
      rw [hbe]
      exact .inr (.inl (by omega))
    · have hle := (hrest.mem hb').1
      rw [hde]
      exact .inr (.inr (by omega))
    · exact ih hrest hb' hd'

/-- Only the headers matter. -/
theorem Tiled.congr (ht : Tiled h p prev bs t last)
    (hget : ∀ b ∈ bs, get h' (hdrp b.start) = get h (hdrp b.start)) : Tiled h' p prev bs t last := by
  induction bs generalizing p prev with
  | nil => exact ht
  | cons b bs ih =>
    have ⟨hs, hdvd, hge, htag, hrest⟩ := ht
    have hhead := hget b List.mem_cons_self
    rw [hs] at hhead
    exact ⟨hs, hdvd, hge, hhead.trans htag, ih hrest fun d hd => hget d (List.mem_cons_of_mem _ hd)⟩

end Tiling

/-! ## Links -/

/-- A null pointer is 0. -/
def pointer (p : ℕ) : Option ℕ := if p = 0 then none else some p

theorem pointer_zero : pointer 0 = none := if_pos rfl

theorem pointer_some {p : ℕ} (hp : p ≠ 0) : pointer p = some p := if_neg hp

theorem pointer_head {l : List ℕ} (hl : ∀ x ∈ l, x ≠ 0) : pointer (l.headD 0) = l.head? := by
  cases l with
  | nil => rfl
  | cons x l => exact pointer_some (hl x List.mem_cons_self)

theorem pointer_last {l : List ℕ} (hl : ∀ x ∈ l, x ≠ 0) : pointer (l.getLastD 0) = l.getLast? := by
  rcases List.eq_nil_or_concat l with rfl | ⟨k, x, rfl⟩
  · rfl
  · rw [List.concat_eq_append] at hl ⊢
    rw [List.getLastD_concat, List.getLast?_concat]
    exact pointer_some (hl x (List.mem_append_right _ List.mem_cons_self))

theorem pointer_inj {p q : ℕ} (h : pointer p = pointer q) : p = q := by
  rw [pointer, pointer] at h
  split_ifs at h with hp hq hq
  · rw [hp, hq]
  · exact Option.some.inj h

attribute [irreducible] pointer

/-- The links that the words of the heap give to each block. -/
def linksOf (h : Heap) : Nodes ℕ := ⟨fun p => pointer (getPrevLink h p), fun p => pointer (getNextLink h p)⟩

@[simp] theorem linksOf_prev (h : Heap) (p : ℕ) : (linksOf h).prev p = pointer (getPrevLink h p) := rfl

@[simp] theorem linksOf_next (h : Heap) (p : ℕ) : (linksOf h).next p = pointer (getNextLink h p) := rfl

/-- A list with its two ends. -/
structure FreeList (h : Heap) (head tail : ℕ) (l : List ℕ) : Prop where
  head : head = l.headD 0
  tail : tail = l.getLastD 0
  nodup : l.Nodup
  chain : Chain (linksOf h) none l none

/-- The blocks fill the heap behind the prologue, and each list holds the free blocks
of its class. -/
structure Exact (h : Heap) (bs : List Piece) (lists : ℕ → List ℕ) : Prop where
  aligned : 16 ∣ h.listp
  tiled : ∃ last, Tiled h (h.listp+dsize) true bs h.brk last ∧ get h (hdrp h.brk) = pack 0 last true
  bound : h.brk ≤ 2^64
  linked : ∀ id < freeListNum, FreeList h (h.freeListHeads id) (h.freeListTails id) (lists id)
  mem : ∀ id < freeListNum, ∀ p, p ∈ lists id ↔
    ∃ b ∈ bs, b.start = p ∧ b.alloc = false ∧ getFreeListHeadId b.size = id

/-! ## What the lists say about the words -/

/-- The address of a block that has links. -/
structure Node (x : ℕ) : Prop where
  dvd : 16 ∣ x
  low : 16 ≤ x
  lt : x < 2^64

section Nodes

variable {h h' : Heap} {bs : List Piece} {lists : ℕ → List ℕ} {l k k' : List ℕ} {head tail p id : ℕ}

theorem Exact.node (he : Exact h bs lists) {b : Piece} (hb : b ∈ bs) : Node b.start := by
  obtain ⟨last, ht, -⟩ := he.tiled
  have hlow := (ht.mem hb).1
  have hend := (ht.mem hb).2.1
  have hsize := (ht.mem hb).2.2.1
  have hbound := he.bound
  rw [dsize] at hlow
  exact ⟨(ht.aligned (dvd_add he.aligned (dvd_refl 16))).2 b hb, by omega, by omega⟩

theorem Exact.listed (he : Exact h bs lists) (hid : id < freeListNum) {x : ℕ} (hx : x ∈ lists id) : Node x := by
  obtain ⟨b, hb, rfl, -⟩ := (he.mem id hid x).mp hx
  exact he.node hb

theorem Node.ne {x : ℕ} (hx : Node x) : x ≠ 0 := by
  have hlow := hx.low
  omega

/-- The links of a block in the middle of its list. -/
theorem chain_links (hn : ∀ x ∈ k++p :: k', Node x) (hc : Chain (linksOf h) none (k++p :: k') none) :
    getPrevLink h p = k.getLastD 0 ∧ getNextLink h p = k'.headD 0 := by
  have hk : ∀ x ∈ k, x ≠ 0 := fun x hx => (hn x (List.mem_append_left _ hx)).ne
  have hk' : ∀ x ∈ k', x ≠ 0 := fun x hx => (hn x (List.mem_append_right _ (List.mem_cons_of_mem _ hx))).ne
  obtain ⟨-, hprev, hnext, -⟩ := chain_append.mp hc
  rw [Option.or_none, linksOf_prev, ← pointer_last hk] at hprev
  rw [Option.or_none, linksOf_next, ← pointer_head hk'] at hnext
  exact ⟨pointer_inj hprev, pointer_inj hnext⟩

end Nodes

/-! ## Taking a block out of its list -/

section Removal

variable {h h' : Heap} {l k k' : List ℕ} {p q w v y z id : ℕ}

theorem get_put_word (hq : 8 ∣ q) (hw : 8 ∣ w) (hv : v < 2^64) :
    get (put w v h) q = if q = w then v else get h q := by
  by_cases heq : q = w
  · rw [if_pos heq, heq, get_put, Nat.mod_eq_of_lt hv]
  · rw [if_neg heq]
    exact get_put_other (by omega)

/-- A null pointer or a node. -/
def Link (x : ℕ) : Prop := x = 0 ∨ Node x

theorem link_head (hn : ∀ x ∈ l, Node x) : Link (l.headD 0) := by
  cases l with
  | nil => exact .inl rfl
  | cons x l => exact .inr (hn x List.mem_cons_self)

theorem link_last (hn : ∀ x ∈ l, Node x) : Link (l.getLastD 0) := by
  rcases List.eq_nil_or_concat l with rfl | ⟨k, x, rfl⟩
  · exact .inl rfl
  · rw [List.concat_eq_append] at hn ⊢
    rw [List.getLastD_concat]
    exact .inr (hn x (List.mem_append_right _ List.mem_cons_self))

theorem Link.lt (hx : Link y) : y < 2^64 := by
  rcases hx with rfl | hx
  · exact Nat.two_pow_pos 64
  · exact hx.lt

theorem Link.dvd (hx : Link y) : 16 ∣ y := by
  rcases hx with rfl | hx
  · exact dvd_zero 16
  · exact hx.dvd

theorem unlink_get (hprev : getPrevLink h p = y) (hnext : getNextLink h p = z) (hy : Link y) (hz : Link z)
    (hq : 8 ∣ q) : get (unlink p h) q =
      if z ≠ 0 ∧ q = z then y else if y ≠ 0 ∧ q = y+8 then z else get h q := by
  have hydvd := hy.dvd
  have hzdvd := hz.dvd
  rw [unlink, hprev, hnext]
  have hfirst : ∀ q, 8 ∣ q → get (if y ≠ 0 then setNextLink y z h else h) q =
      if y ≠ 0 ∧ q = y+8 then z else get h q := by
    intro q hq
    by_cases hy0 : y ≠ 0
    · rw [if_pos hy0, setNextLink, get_put_word hq (by rw [wsize]; omega) hz.lt, wsize]
      simp only [hy0, ne_eq, not_false_eq_true, true_and]
    · have hnot : ¬ (y ≠ 0 ∧ q = y+8) := fun hn => hy0 hn.1
      rw [if_neg hy0, if_neg hnot]
  by_cases hz0 : z ≠ 0
  · rw [if_pos hz0, setPrevLink, get_put_word hq (by omega) hy.lt, hfirst q hq]
    simp only [hz0, ne_eq, not_false_eq_true, true_and]
  · have hnot : ¬ (z ≠ 0 ∧ q = z) := fun hn => hz0 hn.1
    rw [if_neg hz0, if_neg hnot]
    exact hfirst q hq

/-- All but the memory. -/
structure SameFrame (h h' : Heap) : Prop where
  listp : h'.listp = h.listp
  heads : h'.freeListHeads = h.freeListHeads
  tails : h'.freeListTails = h.freeListTails
  brk : h'.brk = h.brk

theorem SameFrame.refl (h : Heap) : SameFrame h h := ⟨rfl, rfl, rfl, rfl⟩

theorem SameFrame.trans {h'' : Heap} (hs : SameFrame h h') (hs' : SameFrame h' h'') : SameFrame h h'' :=
  ⟨hs'.listp.trans hs.listp, hs'.heads.trans hs.heads, hs'.tails.trans hs.tails, hs'.brk.trans hs.brk⟩

theorem same_put (w v : ℕ) (h : Heap) : SameFrame h (put w v h) := ⟨rfl, rfl, rfl, rfl⟩

theorem same_ite {cond : Prop} [Decidable cond] {g : Heap} (w v : ℕ) (hs : SameFrame h g) :
    SameFrame h (if cond then put w v g else g) := by
  by_cases hc : cond
  · rw [if_pos hc]
    exact hs.trans (same_put w v g)
  · rw [if_neg hc]
    exact hs

theorem same_unlink : SameFrame h (unlink p h) := by
  rw [unlink]
  simp only [setPrevLink, setNextLink]
  exact same_ite _ _ (same_ite _ _ (SameFrame.refl h))

/-- Links of a block that is in no list. -/
def clearLinks (p : ℕ) (h : Heap) : Heap := setNextLink p 0 (setPrevLink p 0 h)

theorem remove_head (hid : getFreeListHeadId (getSize h (hdrp p)) = id) (hhead : h.freeListHeads id = p)
    (hnext : getNextLink h p = z) : freeListRemove p h =
      clearLinks p (if z ≠ 0 then setPrevLink z 0 (setHead id z h) else setTail id 0 (setHead id z h)) := by
  have hnew : (setHead id z h).freeListHeads id = z := Function.update_self _ _ _
  rw [freeListRemove, hid, if_pos hhead, hhead, hnext]
  dsimp only
  rw [hnew]
  rfl

theorem remove_tail (hid : getFreeListHeadId (getSize h (hdrp p)) = id) (hhead : h.freeListHeads id ≠ p)
    (htail : h.freeListTails id = p) (hprev : getPrevLink h p = y) :
    freeListRemove p h = clearLinks p (setNextLink y 0 (setTail id y h)) := by
  have hnew : (setTail id y h).freeListTails id = y := Function.update_self _ _ _
  rw [freeListRemove, hid, if_neg hhead, if_pos htail, htail, hprev]
  dsimp only
  rw [hnew]
  rfl

theorem remove_inner (hid : getFreeListHeadId (getSize h (hdrp p)) = id) (hhead : h.freeListHeads id ≠ p)
    (htail : h.freeListTails id ≠ p) : freeListRemove p h = clearLinks p (unlink p h) := by
  rw [freeListRemove, hid, if_neg hhead, if_neg htail]
  rfl

theorem get_head (h : Heap) (id x q : ℕ) : get (setHead id x h) q = get h q := rfl

theorem get_tail (h : Heap) (id x q : ℕ) : get (setTail id x h) q = get h q := rfl

theorem clear_get (hp : 8 ∣ p) (hq : 8 ∣ q) (h : Heap) :
    get (clearLinks p h) q = if q = p ∨ q = p+8 then 0 else get h q := by
  rw [clearLinks, setNextLink, setPrevLink, wsize, get_put_word hq (by omega) (Nat.two_pow_pos 64),
    get_put_word hq hp (Nat.two_pow_pos 64)]
  by_cases hnext : q = p+8
  · rw [if_pos hnext, if_pos (.inr hnext)]
  · rw [if_neg hnext]
    by_cases hfirst : q = p
    · rw [if_pos hfirst, if_pos (.inl hfirst)]
    · rw [if_neg hfirst, if_neg (not_or.mpr ⟨hfirst, hnext⟩)]

theorem same_clear (p : ℕ) (h : Heap) : SameFrame h (clearLinks p h) := by
  rw [clearLinks, setNextLink, setPrevLink]
  exact (same_put _ _ _).trans (same_put _ _ _)

/-- What the heap is when the block between `y` and `z` has left list `id`, which now
goes from `first` to `final`. -/
structure Detached (h h' : Heap) (id p y z first final : ℕ) : Prop where
  words : ∀ q, 8 ∣ q → get h' q = if q = p ∨ q = p+8 then 0
    else if z ≠ 0 ∧ q = z then y else if y ≠ 0 ∧ q = y+8 then z else get h q
  heads : h'.freeListHeads = Function.update h.freeListHeads id first
  tails : h'.freeListTails = Function.update h.freeListTails id final
  listp : h'.listp = h.listp
  brk : h'.brk = h.brk

theorem update_head (f : ℕ → ℕ) (id : ℕ) {x : ℕ} (hx : f id = x) : f = Function.update f id x := by
  rw [← hx, Function.update_eq_self]

theorem headD_append (k l : List ℕ) (y : ℕ) : (k++[y]++l).headD 0 = (k++[y]).headD 0 := by
  cases k with
  | nil => rfl
  | cons x k => rfl

theorem getLastD_append (k l : List ℕ) (z : ℕ) : (k++z :: l).getLastD 0 = (z :: l).getLastD 0 := by
  rcases List.eq_nil_or_concat l with rfl | ⟨l', x, rfl⟩
  · rw [List.getLastD_concat]
    rfl
  · rw [List.concat_eq_append, ← List.cons_append, ← List.append_assoc, List.getLastD_concat,
      List.getLastD_concat]

theorem remove_first (hid : getFreeListHeadId (getSize h (hdrp p)) = id)
    (hl : FreeList h (h.freeListHeads id) (h.freeListTails id) (p :: k')) (hn : ∀ x ∈ p :: k', Node x) :
    Detached h (freeListRemove p h) id p 0 (k'.headD 0) (k'.headD 0) (k'.getLastD 0) := by
  obtain ⟨-, hnext⟩ := @chain_links h [] k' p hn hl.chain
  have hp := (hn p List.mem_cons_self).dvd
  have hk' : ∀ x ∈ k', Node x := fun x hx => hn x (List.mem_cons_of_mem _ hx)
  rw [remove_head hid hl.head hnext]
  cases k' with
  | nil =>
    rw [List.headD_nil, if_neg fun hne => hne rfl]
    have hsame := same_clear p (setTail id 0 (setHead id 0 h))
    refine ⟨fun q hq => ?_, hsame.heads, hsame.tails, hsame.listp, hsame.brk⟩
    have hno : ¬ ((0 : ℕ) ≠ 0 ∧ q = 0) := fun hn => hn.1 rfl
    have hno' : ¬ ((0 : ℕ) ≠ 0 ∧ q = 0+8) := fun hn => hn.1 rfl
    rw [clear_get (by omega) hq, get_tail, get_head, if_neg hno, if_neg hno']
  | cons z k' =>
    have hz := hk' z List.mem_cons_self
    have hzdvd := hz.dvd
    rw [List.headD_cons, if_pos hz.ne, setPrevLink]
    have hsame := (same_put z 0 (setHead id z h)).trans (same_clear p _)
    refine ⟨fun q hq => ?_, hsame.heads, ?_, hsame.listp, hsame.brk⟩
    · have hno' : ¬ ((0 : ℕ) ≠ 0 ∧ q = 0+8) := fun hn => hn.1 rfl
      rw [clear_get (by omega) hq, get_put_word hq (by omega) (Nat.two_pow_pos 64), get_head, if_neg hno']
      simp only [ne_eq, hz.ne, not_false_eq_true, true_and]
    · rw [hsame.tails]
      exact update_head _ _ hl.tail

theorem remove_last {y : ℕ} (hid : getFreeListHeadId (getSize h (hdrp p)) = id)
    (hl : FreeList h (h.freeListHeads id) (h.freeListTails id) (k++[y]++[p])) (hn : ∀ x ∈ k++[y]++[p], Node x) :
    Detached h (freeListRemove p h) id p y 0 ((k++[y]).headD 0) y := by
  obtain ⟨hprev, -⟩ := chain_links hn hl.chain
  rw [List.getLastD_concat] at hprev
  have hy := hn y (List.mem_append_left _ (List.mem_append_right _ List.mem_cons_self))
  have hp := (hn p (List.mem_append_right _ List.mem_cons_self)).dvd
  have hydvd := hy.dvd
  have hhead := hl.head
  have htail := hl.tail
  rw [headD_append] at hhead
  rw [List.getLastD_concat] at htail
  have hne : h.freeListHeads id ≠ p := by
    rw [hhead]
    intro heq
    refine (List.nodup_append.mp hl.nodup).2.2 p ?_ p List.mem_cons_self rfl
    cases k with
    | nil => exact heq ▸ List.mem_cons_self
    | cons x k => exact heq ▸ List.mem_cons_self
  rw [remove_tail hid hne htail hprev, setNextLink, wsize]
  have hsame := (same_put (y+8) 0 (setTail id y h)).trans (same_clear p _)
  refine ⟨fun q hq => ?_, ?_, hsame.tails, hsame.listp, hsame.brk⟩
  · have hno : ¬ ((0 : ℕ) ≠ 0 ∧ q = 0) := fun hn => hn.1 rfl
    rw [clear_get (by omega) hq, get_put_word hq (by omega) (Nat.two_pow_pos 64), get_tail, if_neg hno]
    simp only [ne_eq, hy.ne, not_false_eq_true, true_and]
  · rw [hsame.heads]
    exact update_head _ _ hhead

theorem remove_between {y z : ℕ} (hid : getFreeListHeadId (getSize h (hdrp p)) = id)
    (hl : FreeList h (h.freeListHeads id) (h.freeListTails id) (k++[y]++p :: z :: k'))
    (hn : ∀ x ∈ k++[y]++p :: z :: k', Node x) :
    Detached h (freeListRemove p h) id p y z ((k++[y]).headD 0) ((z :: k').getLastD 0) := by
  obtain ⟨hprev, hnext⟩ := chain_links hn hl.chain
  rw [List.getLastD_concat] at hprev
  have hparts := List.nodup_append.mp hl.nodup
  have hy := hn y (List.mem_append_left _ (List.mem_append_right _ List.mem_cons_self))
  have hp := (hn p (List.mem_append_right _ List.mem_cons_self)).dvd
  have hz := hn z (List.mem_append_right _ (List.mem_cons_of_mem _ List.mem_cons_self))
  have hhead := hl.head
  have htail := hl.tail
  rw [headD_append] at hhead
  rw [getLastD_append] at htail
  have hne : h.freeListHeads id ≠ p := by
    rw [hhead]
    intro heq
    refine hparts.2.2 p ?_ p List.mem_cons_self rfl
    cases k with
    | nil => exact heq ▸ List.mem_cons_self
    | cons x k => exact heq ▸ List.mem_cons_self
  have hne' : h.freeListTails id ≠ p := by
    rw [htail]
    intro heq
    refine (List.nodup_cons.mp hparts.2.1).1 ?_
    have hmem : (z :: k').getLastD 0 ∈ z :: k' := by
      rw [List.getLastD_cons]
      exact List.getLastD_mem_cons ..
    have hcons : (p :: z :: k').getLastD 0 = (z :: k').getLastD 0 := rfl
    rw [hcons] at heq
    exact heq ▸ hmem
  rw [remove_inner hid hne hne']
  have hsame := (@same_unlink h p).trans (same_clear p _)
  refine ⟨fun q hq => ?_, ?_, ?_, hsame.listp, hsame.brk⟩
  · rw [clear_get (by omega) hq, unlink_get hprev hnext (.inr hy) (.inr hz) hq]
    rfl
  · rw [hsame.heads]
    exact update_head _ _ hhead
  · rw [hsame.tails]
    exact update_head _ _ htail

/-- The three cases of `free_list_remove` come to the same. -/
theorem remove_detached (hid : getFreeListHeadId (getSize h (hdrp p)) = id)
    (hl : FreeList h (h.freeListHeads id) (h.freeListTails id) (k++p :: k')) (hn : ∀ x ∈ k++p :: k', Node x) :
    Detached h (freeListRemove p h) id p (k.getLastD 0) (k'.headD 0) ((k++k').headD 0) ((k++k').getLastD 0) := by
  rcases List.eq_nil_or_concat k with rfl | ⟨k₀, y, rfl⟩
  · exact remove_first hid hl hn
  · rw [List.concat_eq_append] at hl hn ⊢
    rw [List.getLastD_concat, headD_append]
    cases k' with
    | nil =>
      rw [List.append_nil, List.getLastD_concat]
      exact remove_last hid hl hn
    | cons z k' =>
      rw [getLastD_append]
      exact remove_between hid hl hn

theorem prev_congr (hget : get h' p = get h p) : (linksOf h').prev p = (linksOf h).prev p := by
  rw [linksOf_prev, linksOf_prev, getPrevLink, getPrevLink, hget]

theorem next_congr (hget : get h' (p+8) = get h (p+8)) : (linksOf h').next p = (linksOf h).next p := by
  rw [linksOf_next, linksOf_next, getNextLink, getNextLink, wsize, hget]

/-- A list whose blocks have the same links. -/
theorem FreeList.congr {head tail : ℕ} (hl : FreeList h head tail l)
    (hget : ∀ x ∈ l, get h' x = get h x ∧ get h' (x+8) = get h (x+8)) : FreeList h' head tail l :=
  ⟨hl.head, hl.tail, hl.nodup, chain_congr (fun x hx => prev_congr (hget x hx).1)
    (fun x hx => next_congr (hget x hx).2) hl.chain⟩

/-- The blocks before the one that is taken out. -/
theorem Detached.before {first final : ℕ} (hparts : k.Nodup) (hcross : ∀ x ∈ k, ∀ w ∈ p :: k', x ≠ w)
    (hp : Node p) (hk : ∀ x ∈ k, Node x) (hk' : ∀ x ∈ k', Node x)
    (hd : Detached h h' id p (k.getLastD 0) (k'.headD 0) first final)
    (hfront : Chain (linksOf h) none k ((p :: k').head?.or none)) : Chain (linksOf h') none k k'.head? := by
  have hpdvd := hp.dvd
  have hy := (link_last hk).dvd
  have hz := (link_head hk').dvd
  have hwords : ∀ x ∈ k, get h' x = get h x ∧
      get h' (x+8) = if x = k.getLastD 0 then k'.headD 0 else get h (x+8) := by
    intro x hx
    have hxd := (hk x hx).dvd
    have hxp : x ≠ p := hcross x hx p List.mem_cons_self
    have hxz : k'.headD 0 ≠ 0 → x ≠ k'.headD 0 := by
      intro hne
      cases k' with
      | nil => exact absurd rfl hne
      | cons z k' => exact hcross x hx z (List.mem_cons_of_mem _ List.mem_cons_self)
    have hlast : k.getLastD 0 ≠ 0 := by
      rcases List.eq_nil_or_concat k with rfl | ⟨k₀, y, rfl⟩
      · cases hx
      · rw [List.concat_eq_append, List.getLastD_concat]
        exact (hk y (by simp)).ne
    rw [hd.words x (by omega), hd.words (x+8) (by omega), if_neg (by omega), if_neg (fun hn => hxz hn.1 hn.2),
      if_neg (by omega), if_neg (by omega), if_neg (by omega)]
    refine ⟨rfl, ?_⟩
    by_cases hxl : x = k.getLastD 0
    · rw [if_pos ⟨hlast, by omega⟩, if_pos hxl]
    · rw [if_neg (by omega), if_neg hxl]
  rcases List.eq_nil_or_concat k with rfl | ⟨k₀, y, rfl⟩
  · trivial
  · rw [List.concat_eq_append] at *
    have hset := chain_setLast k'.head? hparts hfront
    refine chain_congr (fun x hx => ?_) (fun x hx => ?_) hset
    · rw [Nodes.setNext_prev]
      exact prev_congr (hwords x hx).1
    · have hnext := (hwords x hx).2
      rw [List.getLastD_concat] at hnext
      by_cases hxy : x = y
      · rw [if_pos hxy] at hnext
        rw [linksOf_next, getNextLink, wsize, hnext, hxy, Nodes.setNext_same]
        exact pointer_head fun w hw => (hk' w hw).ne
      · rw [if_neg hxy] at hnext
        rw [Nodes.setNext_other _ _ hxy]
        exact next_congr hnext

/-- The blocks behind it. -/
theorem Detached.behind {first final : ℕ} (hnodup : (p :: k').Nodup) (hcross : ∀ x ∈ k, ∀ w ∈ p :: k', x ≠ w)
    (hp : Node p) (hk : ∀ x ∈ k, Node x) (hk' : ∀ x ∈ k', Node x)
    (hd : Detached h h' id p (k.getLastD 0) (k'.headD 0) first final)
    (hback : Chain (linksOf h) (some p) k' none) : Chain (linksOf h') k.getLast? k' none := by
  have hpdvd := hp.dvd
  have hpk' : p ∉ k' := (List.nodup_cons.mp hnodup).1
  have hy := (link_last hk).dvd
  have hz := (link_head hk').dvd
  have hwords : ∀ x ∈ k', get h' (x+8) = get h (x+8) ∧
      get h' x = if x = k'.headD 0 then k.getLastD 0 else get h x := by
    intro x hx
    have hxd := (hk' x hx).dvd
    have hxp : x ≠ p := fun hxp => hpk' (hxp ▸ hx)
    have hxy : k.getLastD 0 ≠ 0 → x ≠ k.getLastD 0 := by
      intro hne
      rcases List.eq_nil_or_concat k with rfl | ⟨k₀, y, rfl⟩
      · exact absurd rfl hne
      · rw [List.concat_eq_append, List.getLastD_concat]
        exact (hcross y (by simp) x (List.mem_cons_of_mem _ hx)).symm
    have hhead : k'.headD 0 ≠ 0 := by
      cases k' with
      | nil => cases hx
      | cons z k' => exact (hk' z List.mem_cons_self).ne
    rw [hd.words x (by omega), hd.words (x+8) (by omega), if_neg (by omega), if_neg (by omega),
      if_neg (fun hn => hxy hn.1 (by omega)), if_neg (by omega)]
    refine ⟨rfl, ?_⟩
    by_cases hxl : x = k'.headD 0
    · rw [if_pos ⟨hhead, hxl⟩, if_pos hxl]
    · rw [if_neg (fun hn => hxl hn.2), if_neg (by omega), if_neg hxl]
  cases k' with
  | nil => trivial
  | cons z k' =>
    have hset := chain_setFirst k.getLast? (List.nodup_cons.mp hnodup).2 hback
    refine chain_congr (fun x hx => ?_) (fun x hx => ?_) hset
    · have hprev := (hwords x hx).2
      rw [List.headD_cons] at hprev
      by_cases hxz : x = z
      · rw [if_pos hxz] at hprev
        rw [linksOf_prev, getPrevLink, hprev, hxz, Nodes.setPrev_same]
        exact pointer_last fun w hw => (hk w hw).ne
      · rw [if_neg hxz] at hprev
        rw [Nodes.setPrev_other _ _ hxz]
        exact prev_congr hprev
    · rw [Nodes.setPrev_next]
      exact next_congr (hwords x hx).1

/-- What is left of the list. -/
theorem Detached.list {head tail : ℕ} (hl : FreeList h head tail (k++p :: k'))
    (hn : ∀ x ∈ k++p :: k', Node x)
    (hd : Detached h h' id p (k.getLastD 0) (k'.headD 0) ((k++k').headD 0) ((k++k').getLastD 0)) :
    FreeList h' (h'.freeListHeads id) (h'.freeListTails id) (k++k') := by
  have hparts := List.nodup_append.mp hl.nodup
  have hk : ∀ x ∈ k, Node x := fun x hx => hn x (List.mem_append_left _ hx)
  have hk' : ∀ x ∈ k', Node x := fun x hx => hn x (List.mem_append_right _ (List.mem_cons_of_mem _ hx))
  have hp := hn p (List.mem_append_right _ List.mem_cons_self)
  have hcross : ∀ x ∈ k, ∀ w ∈ p :: k', x ≠ w := fun x hx w hw => hparts.2.2 x hx w hw
  obtain ⟨hfront, -, -, hback⟩ := chain_append.mp hl.chain
  refine ⟨?_, ?_, ?_, ?_⟩
  · rw [hd.heads, Function.update_self]
  · rw [hd.tails, Function.update_self]
  · exact hl.nodup.sublist (List.Sublist.append (List.Sublist.refl k) (List.sublist_cons_self p k'))
  · rw [chain_append, Option.or_none, Option.or_none]
    exact ⟨hd.before hparts.1 hcross hp hk hk' hfront, hd.behind hparts.2.1 hcross hp hk hk' hback⟩

/-- The words that the removal leaves alone. -/
theorem Detached.other {first final : ℕ}
    (hd : Detached h h' id p (k.getLastD 0) (k'.headD 0) first final) (hq : 8 ∣ q)
    (hout : ∀ x ∈ k++p :: k', q ≠ x ∧ q ≠ x+8) : get h' q = get h q := by
  have hp := hout p (List.mem_append_right _ List.mem_cons_self)
  have hz : ¬ (k'.headD 0 ≠ 0 ∧ q = k'.headD 0) := by
    rintro ⟨hne, hqz⟩
    cases k' with
    | nil => exact hne rfl
    | cons z k' => exact (hout z (List.mem_append_right _ (List.mem_cons_of_mem _ List.mem_cons_self))).1 hqz
  have hy : ¬ (k.getLastD 0 ≠ 0 ∧ q = k.getLastD 0+8) := by
    rintro ⟨hne, hqy⟩
    rcases List.eq_nil_or_concat k with rfl | ⟨k₀, y, rfl⟩
    · exact hne rfl
    · rw [List.concat_eq_append] at hout
      rw [List.concat_eq_append, List.getLastD_concat] at hqy
      exact (hout y (List.mem_append_left _ (List.mem_append_right _ List.mem_cons_self))).2 hqy
  rw [hd.words q hq, if_neg (not_or.mpr hp), if_neg hz, if_neg hy]

end Removal

/-! ## Putting a block into its list -/

section Insertion

variable {h h' : Heap} {l : List ℕ} {p q y id : ℕ}

/-- What the heap is when the block is behind `y` at the end of list `id`, which goes
from `first`. -/
structure Attached (h h' : Heap) (id p y first : ℕ) : Prop where
  words : ∀ q, 8 ∣ q → get h' q = if q = p then y else if q = p+8 then 0
    else if y ≠ 0 ∧ q = y+8 then p else get h q
  heads : h'.freeListHeads = Function.update h.freeListHeads id first
  tails : h'.freeListTails = Function.update h.freeListTails id p
  listp : h'.listp = h.listp
  brk : h'.brk = h.brk

theorem insert_empty (hid : getFreeListHeadId (getSize h (hdrp p)) = id) (htail : h.freeListTails id = 0) :
    freeListInsert p h = setHead id p (setTail id p (clearLinks p h)) := by
  have hsame : (clearLinks p h).freeListTails id = 0 := (congrFun (same_clear p h).tails id).trans htail
  rw [freeListInsert, hid]
  change (if (clearLinks p h).freeListTails id = 0 then _ else _) = _
  rw [if_pos hsame]
  rfl

theorem insert_behind (hid : getFreeListHeadId (getSize h (hdrp p)) = id) (htail : h.freeListTails id = y)
    (hy : y ≠ 0) :
    freeListInsert p h = setTail id p (setNextLink y p (setPrevLink p y (clearLinks p h))) := by
  have hsame : (clearLinks p h).freeListTails id = y := (congrFun (same_clear p h).tails id).trans htail
  have hsame' : (setPrevLink p y (clearLinks p h)).freeListTails id = y := by
    rw [setPrevLink, (same_put _ _ _).tails]
    exact hsame
  rw [freeListInsert, hid]
  change (if (clearLinks p h).freeListTails id = 0 then _ else setTail id p (setNextLink
    ((setPrevLink p ((clearLinks p h).freeListTails id) (clearLinks p h)).freeListTails id) p
    (setPrevLink p ((clearLinks p h).freeListTails id) (clearLinks p h)))) = _
  rw [hsame, if_neg hy, hsame']

theorem insert_attached (hid : getFreeListHeadId (getSize h (hdrp p)) = id)
    (hl : FreeList h (h.freeListHeads id) (h.freeListTails id) l) (hn : ∀ x ∈ l, Node x) (hp : Node p)
    (hpl : p ∉ l) : Attached h (freeListInsert p h) id p (l.getLastD 0) ((l++[p]).headD 0) := by
  have hdvd := hp.dvd
  have hcl := same_clear p h
  rcases List.eq_nil_or_concat l with rfl | ⟨k, y, rfl⟩
  · rw [insert_empty hid hl.tail]
    refine ⟨fun q hq => ?_, ?_, ?_, hcl.listp, hcl.brk⟩
    · have hno : ¬ ((0 : ℕ) ≠ 0 ∧ q = 0+8) := fun hn => hn.1 rfl
      rw [get_head, get_tail, clear_get (by omega) hq, List.getLastD_nil, if_neg hno]
      by_cases hqp : q = p
      · rw [if_pos hqp, if_pos (.inl hqp)]
      · rw [if_neg hqp]
        by_cases hqn : q = p+8
        · rw [if_pos hqn, if_pos (.inr hqn)]
        · rw [if_neg hqn, if_neg (not_or.mpr ⟨hqp, hqn⟩)]
    · exact congrArg (fun f => Function.update f id p) hcl.heads
    · exact congrArg (fun f => Function.update f id p) hcl.tails
  · rw [List.concat_eq_append] at hl hn hpl ⊢
    have hy := hn y (List.mem_append_right _ List.mem_cons_self)
    have hydvd := hy.dvd
    have hyp : y ≠ p := fun hyp => hpl (hyp ▸ List.mem_append_right _ List.mem_cons_self)
    have htail := hl.tail
    rw [List.getLastD_concat] at htail ⊢
    rw [insert_behind hid htail hy.ne, setPrevLink, setNextLink, wsize]
    have hsame := (hcl.trans (same_put p y (clearLinks p h))).trans (same_put (y+8) p _)
    refine ⟨fun q hq => ?_, ?_, ?_, hsame.listp, hsame.brk⟩
    · rw [get_tail, get_put_word hq (by omega) hp.lt, get_put_word hq (by omega) hy.lt,
        clear_get (by omega) hq]
      simp only [ne_eq, hy.ne, not_false_eq_true, true_and]
      by_cases hqp : q = p
      · rw [if_neg (by omega), if_pos hqp, if_pos hqp]
      · rw [if_neg hqp, if_neg hqp]
        by_cases hqn : q = p+8
        · rw [if_neg (by omega), if_pos (.inr hqn), if_pos hqn]
        · rw [if_neg (not_or.mpr ⟨hqp, hqn⟩), if_neg hqn]
    · refine hsame.heads.trans (update_head _ _ ?_)
      rw [hl.head, headD_append]
    · exact congrArg (fun f => Function.update f id p) hsame.tails

/-- The words that the insertion leaves alone. -/
theorem Attached.other {first : ℕ} (ha : Attached h h' id p (l.getLastD 0) first) (hq : 8 ∣ q)
    (hout : ∀ x ∈ l++[p], q ≠ x ∧ q ≠ x+8) : get h' q = get h q := by
  have hp := hout p (List.mem_append_right _ List.mem_cons_self)
  have hy : ¬ (l.getLastD 0 ≠ 0 ∧ q = l.getLastD 0+8) := by
    rintro ⟨hne, hqy⟩
    rcases List.eq_nil_or_concat l with rfl | ⟨k, y, rfl⟩
    · exact hne rfl
    · rw [List.concat_eq_append] at hout
      rw [List.concat_eq_append, List.getLastD_concat] at hqy
      exact (hout y (List.mem_append_left _ (List.mem_append_right _ List.mem_cons_self))).2 hqy
  rw [ha.words q hq, if_neg hp.1, if_neg hp.2, if_neg hy]

theorem Attached.list {head tail : ℕ} (hl : FreeList h head tail l) (hn : ∀ x ∈ l, Node x) (hp : Node p)
    (hpl : p ∉ l) (ha : Attached h h' id p (l.getLastD 0) ((l++[p]).headD 0)) :
    FreeList h' (h'.freeListHeads id) (h'.freeListTails id) (l++[p]) := by
  have hdvd := hp.dvd
  have hnodup : (l++[p]).Nodup := List.nodup_append.mpr
    ⟨hl.nodup, List.nodup_singleton p, fun a hal b hb hab => hpl (List.mem_singleton.mp hb ▸ hab ▸ hal)⟩
  refine ⟨?_, ?_, hnodup, ?_⟩
  · rw [ha.heads, Function.update_self]
  · rw [ha.tails, Function.update_self, List.getLastD_concat]
  have hwords : ∀ x ∈ l, get h' x = get h x ∧
      get h' (x+8) = if x = l.getLastD 0 then p else get h (x+8) := by
    intro x hx
    have hxd := (hn x hx).dvd
    have hyd := (link_last hn).dvd
    have hxp : x ≠ p := fun hxp => hpl (hxp ▸ hx)
    have hlast : l.getLastD 0 ≠ 0 := by
      rcases List.eq_nil_or_concat l with rfl | ⟨k, y, rfl⟩
      · cases hx
      · rw [List.concat_eq_append] at hn ⊢
        rw [List.getLastD_concat]
        exact (hn y (List.mem_append_right _ List.mem_cons_self)).ne
    rw [ha.words x (by omega), ha.words (x+8) (by omega), if_neg hxp, if_neg (by omega), if_neg (by omega),
      if_neg (by omega), if_neg (by omega)]
    refine ⟨rfl, ?_⟩
    by_cases hxl : x = l.getLastD 0
    · rw [if_pos ⟨hlast, by omega⟩, if_pos hxl]
    · rw [if_neg (by omega), if_neg hxl]
  have hprev : get h' p = l.getLastD 0 := by
    rw [ha.words p (by omega), if_pos rfl]
  have hnext : get h' (p+8) = 0 := by
    rw [ha.words (p+8) (by omega), if_neg (by omega), if_pos rfl]
  rw [chain_append]
  refine ⟨?_, ?_, ?_, trivial⟩
  · rcases List.eq_nil_or_concat l with rfl | ⟨k, y, rfl⟩
    · trivial
    · rw [List.concat_eq_append] at *
      have hset := chain_setLast (some p) hl.nodup hl.chain
      refine chain_congr (fun x hx => ?_) (fun x hx => ?_) hset
      · rw [Nodes.setNext_prev]
        exact prev_congr (hwords x hx).1
      · have hnext := (hwords x hx).2
        rw [List.getLastD_concat] at hnext
        by_cases hxy : x = y
        · rw [if_pos hxy] at hnext
          rw [linksOf_next, getNextLink, wsize, hnext, hxy, Nodes.setNext_same]
          exact pointer_some hp.ne
        · rw [if_neg hxy] at hnext
          rw [Nodes.setNext_other _ _ hxy]
          exact next_congr hnext
  · rw [linksOf_prev, getPrevLink, hprev, Option.or_none]
    exact pointer_last fun w hw => (hn w hw).ne
  · rw [linksOf_next, getNextLink, wsize, hnext]
    exact pointer_zero

end Insertion

/-! ## A free block outside of the lists -/

/-- The heap where the block `x` is in no list. -/
structure Loose (h : Heap) (bs : List Piece) (x : Piece) (cs : List Piece) (lists : ℕ → List ℕ) : Prop where
  aligned : 16 ∣ h.listp
  tiled : ∃ last, Tiled h (h.listp+dsize) true (bs++x :: cs) h.brk last ∧ get h (hdrp h.brk) = pack 0 last true
  bound : h.brk ≤ 2^64
  linked : ∀ id < freeListNum, FreeList h (h.freeListHeads id) (h.freeListTails id) (lists id)
  mem : ∀ id < freeListNum, ∀ p, p ∈ lists id ↔
    ∃ b ∈ bs++cs, b.start = p ∧ b.alloc = false ∧ getFreeListHeadId b.size = id

section Loose

variable {h h' : Heap} {bs cs : List Piece} {x b d : Piece} {lists : ℕ → List ℕ} {p t id : ℕ} {prev last : Bool}

theorem Tiled.start_inj (ht : Tiled h p prev bs t last) (hb : b ∈ bs) (hd : d ∈ bs) (hs : b.start = d.start) :
    b = d := by
  have hb' := (ht.mem hb).2.2.1
  have hd' := (ht.mem hd).2.2.1
  rcases ht.apart hb hd with heq | hle | hle
  · exact heq
  · omega
  · omega

theorem Tiled.nodup (ht : Tiled h p prev bs t last) : bs.Nodup := by
  induction bs generalizing p prev with
  | nil => exact List.nodup_nil
  | cons b bs ih =>
    have ⟨hs, _, hge, _, hrest⟩ := ht
    refine List.nodup_cons.mpr ⟨fun hb => ?_, ih hrest⟩
    have hle := (hrest.mem hb).1
    omega

/-- Headers are no links. -/
theorem Tiled.header_apart (ht : Tiled h p prev bs t last) (hp : 16 ∣ p) (hlow : 16 ≤ p) (hb : b ∈ bs)
    (hd : d ∈ bs) : hdrp b.start ≠ d.start ∧ hdrp b.start ≠ d.start+8 := by
  have hb' := ht.mem hb
  have hd' := ht.mem hd
  have hbd := (ht.aligned hp).2 b hb
  have hdd := (ht.aligned hp).2 d hd
  rw [hdrp, wsize]
  rcases ht.apart hb hd with rfl | hle | hle
  · omega
  · omega
  · omega

theorem Tiled.end_apart (ht : Tiled h p prev bs t last) (hp : 16 ∣ p) (hd : d ∈ bs) :
    hdrp t ≠ d.start ∧ hdrp t ≠ d.start+8 := by
  have hd' := ht.mem hd
  have hdd := (ht.aligned hp).2 d hd
  have htd := (ht.aligned hp).1
  rw [hdrp, wsize]
  omega

theorem Exact.listp_low (he : Exact h bs lists) : 16 ∣ h.listp+dsize ∧ 16 ≤ h.listp+dsize := by
  have hdvd := he.aligned
  rw [dsize]
  omega

/-- The header of a block in a list. -/
theorem Exact.size (he : Exact h bs lists) (hb : b ∈ bs) : getSize h (hdrp b.start) = b.size := by
  obtain ⟨last, ht, -⟩ := he.tiled
  obtain ⟨-, hend, -, hdvd, before, htag⟩ := ht.mem hb
  have hlow := (ht.mem hb).1
  have hbound := he.bound
  rw [dsize] at hlow
  exact tag_size hdvd (by omega) htag

/-- A block is in the list of its class. -/
theorem Exact.in_class (he : Exact h bs lists) (hb : b ∈ bs) (hid : id < freeListNum)
    (hin : b.start ∈ lists id) : b.alloc = false ∧ getFreeListHeadId b.size = id := by
  obtain ⟨last, ht, -⟩ := he.tiled
  obtain ⟨d, hd, hs, hfree, hclass⟩ := (he.mem id hid b.start).mp hin
  have hbd : d = b := ht.start_inj hd hb hs
  rw [← hbd]
  exact ⟨hfree, hclass⟩

/-- The lists without a block hold the free ones of the others. -/
theorem removed_mem (he : Exact h (bs++x :: cs) lists) (hx : x.alloc = false) {k k' : List ℕ}
    (hk : lists (getFreeListHeadId x.size) = k++x.start :: k') {id' : ℕ} (hid' : id' < freeListNum) (w : ℕ) :
    w ∈ Function.update lists (getFreeListHeadId x.size) (k++k') id' ↔
      ∃ b ∈ bs++cs, b.start = w ∧ b.alloc = false ∧ getFreeListHeadId b.size = id' := by
  obtain ⟨last, ht, -⟩ := he.tiled
  have hmem : x ∈ bs++x :: cs := List.mem_append_right _ List.mem_cons_self
  have hid := headId_lt x.size
  have hleft : w ∈ lists id' ∧ w ≠ x.start ↔
      ∃ b ∈ bs++cs, b.start = w ∧ b.alloc = false ∧ getFreeListHeadId b.size = id' := by
    constructor
    · rintro ⟨hw, hne⟩
      obtain ⟨b, hb, hs, hfree, hc⟩ := (he.mem id' hid' w).mp hw
      refine ⟨b, ?_, hs, hfree, hc⟩
      rcases List.mem_append.mp hb with hb | hb
      · exact List.mem_append_left _ hb
      · rcases List.mem_cons.mp hb with rfl | hb
        · exact absurd hs.symm hne
        · exact List.mem_append_right _ hb
    · rintro ⟨b, hb, hs, hfree, hc⟩
      have hb' : b ∈ bs++x :: cs := by
        rcases List.mem_append.mp hb with hb | hb
        · exact List.mem_append_left _ hb
        · exact List.mem_append_right _ (List.mem_cons_of_mem _ hb)
      refine ⟨(he.mem id' hid' w).mpr ⟨b, hb', hs, hfree, hc⟩, ?_⟩
      rintro rfl
      have hbx := ht.start_inj hb' hmem hs
      rw [hbx] at hb
      exact (List.nodup_cons.mp (List.nodup_middle.mp ht.nodup)).1 hb
  rw [← hleft]
  by_cases hsame : id' = getFreeListHeadId x.size
  · have hl := he.linked _ hid
    rw [hk] at hl
    have hnx : x.start ∉ k++k' := (List.nodup_cons.mp (List.nodup_middle.mp hl.nodup)).1
    rw [hsame, Function.update_self, hk]
    simp only [List.mem_append, List.mem_cons]
    constructor
    · intro hw
      refine ⟨hw.imp id fun h => .inr h, ?_⟩
      rintro rfl
      exact hnx (List.mem_append.mpr hw)
    · rintro ⟨hw, hne⟩
      exact hw.imp id fun h => h.resolve_left hne
  · rw [Function.update_of_ne hsame]
    refine ⟨fun hw => ⟨hw, ?_⟩, fun hw => hw.1⟩
    rintro rfl
    exact hsame (he.in_class hmem hid' hw).2.symm

theorem remove_loose (he : Exact h (bs++x :: cs) lists) (hx : x.alloc = false) :
    Loose (freeListRemove x.start h) bs x cs (Function.update lists (getFreeListHeadId x.size)
      ((lists (getFreeListHeadId x.size)).erase x.start)) := by
  obtain ⟨last, ht, hep⟩ := he.tiled
  have hlow := he.listp_low
  have hmem : x ∈ bs++x :: cs := List.mem_append_right _ List.mem_cons_self
  have hid := headId_lt x.size
  have hin : x.start ∈ lists (getFreeListHeadId x.size) := (he.mem _ hid _).mpr ⟨x, hmem, rfl, hx, rfl⟩
  obtain ⟨k, k', hk⟩ := List.append_of_mem hin
  have hl := he.linked _ hid
  rw [hk] at hl
  have hn : ∀ w ∈ k++x.start :: k', Node w := fun w hw => he.listed hid (hk ▸ hw)
  have hnotin : x.start ∉ k := fun hw => (List.nodup_append.mp hl.nodup).2.2 _ hw _ List.mem_cons_self rfl
  have hd := remove_detached (congrArg getFreeListHeadId (he.size hmem)) hl hn
  have hlist := hd.list hl hn
  have herase : (lists (getFreeListHeadId x.size)).erase x.start = k++k' := by
    rw [hk, List.erase_append_right _ hnotin, List.erase_cons_head]
  rw [herase]
  -- words that are no links of this list
  have hclass : ∀ w ∈ k++x.start :: k', ∃ b ∈ bs++x :: cs, b.start = w ∧ getFreeListHeadId b.size = getFreeListHeadId x.size := by
    intro w hw
    obtain ⟨b, hb, hs, -, hc⟩ := (he.mem _ hid w).mp (hk ▸ hw)
    exact ⟨b, hb, hs, hc⟩
  have hheader : ∀ b ∈ bs++x :: cs, get (freeListRemove x.start h) (hdrp b.start) = get h (hdrp b.start) := by
    intro b hb
    have hbn := he.node hb
    have hbdvd := hbn.dvd
    refine hd.other (by rw [hdrp, wsize]; omega) fun w hw => ?_
    obtain ⟨d, hdm, rfl, -⟩ := hclass w hw
    exact ht.header_apart hlow.1 hlow.2 hb hdm
  have hepilogue : get (freeListRemove x.start h) (hdrp h.brk) = get h (hdrp h.brk) := by
    have hdvd := (ht.aligned hlow.1).1
    refine hd.other (by rw [hdrp, wsize]; omega) fun w hw => ?_
    obtain ⟨d, hdm, rfl, -⟩ := hclass w hw
    exact ht.end_apart hlow.1 hdm
  refine ⟨?_, ⟨last, ?_, ?_⟩, ?_, fun id' hid' => ?_, fun id' hid' w => removed_mem he hx hk hid' w⟩
  · rw [hd.listp]
    exact he.aligned
  · rw [hd.listp, hd.brk]
    exact ht.congr hheader
  · rw [hd.brk, hepilogue]
    exact hep
  · rw [hd.brk]
    exact he.bound
  · by_cases hsame : id' = getFreeListHeadId x.size
    · rw [hsame, Function.update_self]
      exact hlist
    · rw [Function.update_of_ne hsame, hd.heads, hd.tails, Function.update_of_ne hsame,
        Function.update_of_ne hsame]
      refine (he.linked id' hid').congr fun w hw => ?_
      have hwd := (he.listed hid' hw).dvd
      have hout : ∀ v ∈ k++x.start :: k', w ≠ v := by
        rintro v hv rfl
        obtain ⟨d, hdm, hds, hdc⟩ := hclass w hv
        exact hsame ((he.in_class hdm hid' (hds ▸ hw)).2.symm.trans hdc)
      have hvd : ∀ v ∈ k++x.start :: k', 16 ∣ v := fun v hv => (hn v hv).dvd
      constructor
      · refine hd.other (by omega) fun v hv => ⟨hout v hv, ?_⟩
        have hv' := hvd v hv
        omega
      · refine hd.other (by omega) fun v hv => ?_
        have hne := hout v hv
        have hv' := hvd v hv
        omega

theorem Loose.low (hs : Loose h bs x cs lists) : 16 ∣ h.listp+dsize ∧ 16 ≤ h.listp+dsize := by
  have hdvd := hs.aligned
  rw [dsize]
  omega

theorem Loose.node (hs : Loose h bs x cs lists) (hb : b ∈ bs++x :: cs) : Node b.start := by
  obtain ⟨last, ht, -⟩ := hs.tiled
  have hlow := (ht.mem hb).1
  have hend := (ht.mem hb).2.1
  have hsize := (ht.mem hb).2.2.1
  have hbound := hs.bound
  have hl := hs.low
  exact ⟨(ht.aligned hl.1).2 b hb, by omega, by omega⟩

theorem Loose.size (hs : Loose h bs x cs lists) (hb : b ∈ bs++x :: cs) : getSize h (hdrp b.start) = b.size := by
  obtain ⟨last, ht, -⟩ := hs.tiled
  obtain ⟨hlow, hend, -, hdvd, before, htag⟩ := ht.mem hb
  have hbound := hs.bound
  have hl := hs.low
  exact tag_size hdvd (by omega) htag

theorem mem_middle : b ∈ bs++x :: cs ↔ b = x ∨ b ∈ bs++cs := by
  rw [List.mem_append, List.mem_cons, List.mem_append]
  tauto

theorem Loose.fresh (hs : Loose h bs x cs lists) (hid : id < freeListNum) : x.start ∉ lists id := by
  obtain ⟨last, ht, -⟩ := hs.tiled
  intro hin
  obtain ⟨b, hb, hstart, -⟩ := (hs.mem id hid _).mp hin
  have hbx := ht.start_inj (mem_middle.mpr (.inr hb)) (mem_middle.mpr (.inl rfl)) hstart
  rw [hbx] at hb
  exact (List.nodup_cons.mp (List.nodup_middle.mp ht.nodup)).1 hb

theorem Loose.listed (hs : Loose h bs x cs lists) {w : ℕ} (hid : id < freeListNum) (hw : w ∈ lists id) :
    ∃ b ∈ bs++x :: cs, b.start = w ∧ getFreeListHeadId b.size = id := by
  obtain ⟨b, hb, hstart, -, hc⟩ := (hs.mem id hid w).mp hw
  exact ⟨b, mem_middle.mpr (.inr hb), hstart, hc⟩

theorem Loose.node_listed (hs : Loose h bs x cs lists) {w : ℕ} (hid : id < freeListNum) (hw : w ∈ lists id) :
    Node w := by
  obtain ⟨b, hb, rfl, -⟩ := hs.listed hid hw
  exact hs.node hb

/-- The lists with one more block hold the free ones of all. -/
theorem inserted_mem (hs : Loose h bs x cs lists) (hx : x.alloc = false) (hid : id < freeListNum) (w : ℕ) :
    w ∈ Function.update lists (getFreeListHeadId x.size) (lists (getFreeListHeadId x.size)++[x.start]) id ↔
      ∃ b ∈ bs++x :: cs, b.start = w ∧ b.alloc = false ∧ getFreeListHeadId b.size = id := by
  have hsplit : (∃ b ∈ bs++x :: cs, b.start = w ∧ b.alloc = false ∧ getFreeListHeadId b.size = id) ↔
      w ∈ lists id ∨ w = x.start ∧ id = getFreeListHeadId x.size := by
    rw [hs.mem id hid w]
    constructor
    · rintro ⟨b, hb, hstart, hfree, hc⟩
      rcases mem_middle.mp hb with rfl | hb
      · exact .inr ⟨hstart.symm, hc.symm⟩
      · exact .inl ⟨b, hb, hstart, hfree, hc⟩
    · rintro (⟨b, hb, hfacts⟩ | ⟨rfl, rfl⟩)
      · exact ⟨b, mem_middle.mpr (.inr hb), hfacts⟩
      · exact ⟨x, mem_middle.mpr (.inl rfl), rfl, hx, rfl⟩
  rw [hsplit]
  by_cases hsame : id = getFreeListHeadId x.size
  · rw [hsame, Function.update_self, List.mem_append, List.mem_singleton]
    simp only [and_true]
  · rw [Function.update_of_ne hsame]
    simp only [hsame, and_false, or_false]

theorem insertion_exact (hs : Loose h bs x cs lists) (hx : x.alloc = false) :
    Exact (freeListInsert x.start h) (bs++x :: cs) (Function.update lists (getFreeListHeadId x.size)
      (lists (getFreeListHeadId x.size)++[x.start])) := by
  obtain ⟨last, ht, hep⟩ := hs.tiled
  have hlow := hs.low
  have hxmem : x ∈ bs++x :: cs := mem_middle.mpr (.inl rfl)
  have hid := headId_lt x.size
  have hxn := hs.node hxmem
  have hfresh := hs.fresh hid
  have hl := hs.linked _ hid
  have ha := insert_attached (congrArg getFreeListHeadId (hs.size hxmem)) hl (fun w hw => hs.node_listed hid hw) hxn hfresh
  have hlist := ha.list hl (fun w hw => hs.node_listed hid hw) hxn hfresh
  have hclass : ∀ w ∈ lists (getFreeListHeadId x.size)++[x.start], ∃ b ∈ bs++x :: cs, b.start = w ∧
      getFreeListHeadId b.size = getFreeListHeadId x.size := by
    intro w hw
    rcases List.mem_append.mp hw with hw | hw
    · exact hs.listed hid hw
    · exact ⟨x, hxmem, (List.mem_singleton.mp hw).symm, rfl⟩
  have hheader : ∀ b ∈ bs++x :: cs, get (freeListInsert x.start h) (hdrp b.start) = get h (hdrp b.start) := by
    intro b hb
    have hbdvd := (hs.node hb).dvd
    refine ha.other (by rw [hdrp, wsize]; omega) fun w hw => ?_
    obtain ⟨d, hdm, rfl, -⟩ := hclass w hw
    exact ht.header_apart hlow.1 hlow.2 hb hdm
  have hepilogue : get (freeListInsert x.start h) (hdrp h.brk) = get h (hdrp h.brk) := by
    have hdvd := (ht.aligned hlow.1).1
    refine ha.other (by rw [hdrp, wsize]; omega) fun w hw => ?_
    obtain ⟨d, hdm, rfl, -⟩ := hclass w hw
    exact ht.end_apart hlow.1 hdm
  refine ⟨?_, ⟨last, ?_, ?_⟩, ?_, fun id' hid' => ?_, fun id' hid' w => inserted_mem hs hx hid' w⟩
  · rw [ha.listp]
    exact hs.aligned
  · rw [ha.listp, ha.brk]
    exact ht.congr hheader
  · rw [ha.brk, hepilogue]
    exact hep
  · rw [ha.brk]
    exact hs.bound
  · by_cases hsame : id' = getFreeListHeadId x.size
    · rw [hsame, Function.update_self]
      exact hlist
    · rw [Function.update_of_ne hsame, ha.heads, ha.tails, Function.update_of_ne hsame,
        Function.update_of_ne hsame]
      refine (hs.linked id' hid').congr fun w hw => ?_
      have hwd := (hs.node_listed hid' hw).dvd
      have hout : ∀ v ∈ lists (getFreeListHeadId x.size)++[x.start], w ≠ v ∧ 16 ∣ v := by
        rintro v hv
        obtain ⟨d, hdm, rfl, hdc⟩ := hclass v hv
        refine ⟨?_, (hs.node hdm).dvd⟩
        rintro rfl
        obtain ⟨b, hb, hstart, hbc⟩ := hs.listed hid' hw
        have hbd := ht.start_inj hb hdm hstart
        rw [hbd] at hbc
        exact hsame (hbc.symm.trans hdc)
      constructor
      · refine ha.other (by omega) fun v hv => ?_
        have hv' := hout v hv
        omega
      · refine ha.other (by omega) fun v hv => ?_
        have hv' := hout v hv
        omega

end Loose

end BabyOS.FreeLists
