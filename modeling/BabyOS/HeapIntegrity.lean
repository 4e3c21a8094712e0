import BabyOS.HeapCalls

/-!
# Integrity of the heap

Any sequence of calls, with stores of the program into what it was given between
them. `Integrity` is stated for heaps with any blocks and lists; the heaps that
occur are those of `Settled`.
-/

set_option autoImplicit false

namespace BabyOS.HeapIntegrity
open BabyOS.ByteWords BabyOS.HeapMachine BabyOS.HeapBlocks BabyOS.HeapCalls

/-- A pointer that was returned and the bytes of its block. -/
structure Payload where
  start : ℕ
  length : ℕ
deriving DecidableEq

def Payload.Holds (y : Payload) (x : ℕ) : Prop := y.start ≤ x ∧ x < y.start+y.length

def Payload.Apart (y z : Payload) : Prop := y.start+y.length ≤ z.start ∨ z.start+z.length ≤ y.start

structure State where
  heap : Heap
  handed : List Payload

/-- The result of a call is handed out, with the size that its header gives. -/
def handOut (p : ℕ) (h : Heap) (l : List Payload) : List Payload :=
  if p = 0 then l else ⟨p, getSize h (hdrp p)-wsize⟩ :: l

def takeBack (p : ℕ) (l : List Payload) : List Payload := l.filter fun y => y.start ≠ p

def handedAfter (l : List Payload) (p : ℕ) (h : Heap) : Call → List Payload
  | .malloc _ => handOut p h l
  | .calloc _ _ => handOut p h l
  | .realloc q size =>
    if q = 0 then handOut p h l
    else if size = 0 then takeBack q l
    else if p = 0 then l
    else handOut p h (takeBack q l)
  | .free q => takeBack q l

/-- The sizes do not wrap, and `realloc` gets a pointer that was handed out. -/
def Allowed (l : List Payload) : Call → Prop
  | .malloc size => size+23 < 2^64
  | .calloc nmemb size => size*nmemb+23 < 2^64
  | .realloc q size =>
    if q = 0 then size+23 < 2^64
    else (∃ y ∈ l, y.start = q) ∧ size+31 < 2^64 ∧ (size+31)/16*16+23 < 2^64
  | .free _ => True

def requested : Call → ℕ
  | .malloc size => size
  | .calloc nmemb size => size*nmemb
  | .realloc _ size => size
  | .free _ => 0

/-- The heaps that calls and stores lead to. -/
inductive Reachable (fuel : ℕ) : State → Prop
  | init {first second : Answer} {h₀ h : Heap} (hbrk : 16 ∣ h₀.brk)
      (hinit : mallocInit first second h₀ = (true, h)) : Reachable fuel ⟨h, []⟩
  | call {s : State} {c : Call} {answer : Answer} {p : ℕ} {h : Heap} (hs : Reachable fuel s)
      (hc : Allowed s.handed c) (hrun : c.run fuel answer s.heap = some (p, h)) :
      Reachable fuel ⟨h, handedAfter s.handed p h c⟩
  | store {s : State} {m : Bytes} (hs : Reachable fuel s)
      (hm : ∀ x, (∀ y ∈ s.handed, ¬ y.Holds x) → m x = s.heap.mem x) :
      Reachable fuel ⟨{ s.heap with mem := m }, s.handed⟩

/-! ## Integrity -/

/-- The blocks from `p` up to the epilogue, behind a block that is allocated or
not. -/
def Tiles (h : Heap) : ℕ → Bool → List ℕ → Prop
  | p, prev, [] => p = h.brk ∧ getSize h (hdrp p) = 0 ∧ getAlloc h (hdrp p) = true ∧
      getPrevAlloc h (hdrp p) = prev
  | p, prev, q :: qs => q = p ∧ 16 ∣ getSize h (hdrp p) ∧ 32 ≤ getSize h (hdrp p) ∧
      getPrevAlloc h (hdrp p) = prev ∧
      (getAlloc h (hdrp p) = false → prev = true ∧ get h (ftrp h p) = get h (hdrp p)) ∧
      Tiles h (nextBlkp h p) (getAlloc h (hdrp p)) qs

/-- A list with its ends and its links both ways. -/
def Linked (h : Heap) (head tail : ℕ) (l : List ℕ) : Prop :=
  head = l.headD 0 ∧ tail = l.getLastD 0 ∧ ∀ k p, l[k]? = some p →
    getNextLink h p = l.getD (k+1) 0 ∧ getPrevLink h p = if k = 0 then 0 else l.getD (k-1) 0

structure Integrity (h : Heap) (handed : List Payload) (blocks : List ℕ) (lists : ℕ → List ℕ) : Prop where
  header : get h (hdrp h.listp) = pack dsize true true
  footer : get h (ftrp h h.listp) = pack dsize true true
  tiles : Tiles h (nextBlkp h h.listp) true blocks
  aligned : ∀ p ∈ blocks, 16 ∣ p
  linked : ∀ id < freeListNum, Linked h (h.freeListHeads id) (h.freeListTails id) (lists id)
  sound : ∀ id < freeListNum, ∀ p ∈ lists id,
    p ∈ blocks ∧ getAlloc h (hdrp p) = false ∧ getFreeListHeadId (getSize h (hdrp p)) = id
  once : ∀ p ∈ blocks, getAlloc h (hdrp p) = false →
    (lists (getFreeListHeadId (getSize h (hdrp p)))).count p = 1
  payloads : ∀ y ∈ handed, y.start ∈ blocks ∧ getAlloc h (hdrp y.start) = true ∧
    y.start+y.length+wsize = nextBlkp h y.start
  apart : handed.Pairwise Payload.Apart

section Described

variable {h : Heap} {bs : List Block} {t c : ℕ}

theorem row_tiles {p : ℕ} {rest : List ℕ} (hr : Row h p t bs) (hrest : Tiles h t true rest) :
    Tiles h p true (bs.map Block.start++rest) := by
  induction bs generalizing p with
  | nil =>
    rw [show p = t from hr]
    exact hrest
  | cons b bs ih =>
    have ⟨hs, hdvd, hge, hlt, ht, hrow⟩ := hr
    have hsize := tag_size hdvd hlt ht
    have halloc := tag_alloc hdvd ht
    refine ⟨hs, ?_, ?_, tag_prev hdvd ht, fun hf => ?_, ?_⟩
    · rw [hsize]
      exact hdvd
    · rw [hsize]
      exact hge
    · rw [halloc] at hf
      cases hf
    · rw [nextBlkp, hsize, halloc]
      exact ih hrow

/-- The blocks of a heap: the allocated ones and the free one. -/
def blocksOf (bs : List Block) (t c : ℕ) : List ℕ := bs.map Block.start++if c = 0 then [] else [t]

def listsOf (t c id : ℕ) : List ℕ := if c ≠ 0 ∧ id = getFreeListHeadId c then [t] else []

theorem settled_tiles (hs : Settled h bs t c) : Tiles h (h.listp+dsize) true (blocksOf bs t c) := by
  refine row_tiles hs.row ?_
  by_cases hc : c = 0
  · have hep := hs.full hc
    have hbrk := hs.brk
    rw [if_pos hc]
    exact ⟨by omega, tag_size (dvd_zero 16) (by decide) hep, tag_alloc (dvd_zero 16) hep,
      tag_prev (dvd_zero 16) hep⟩
  · have ⟨hge, htag, hfoot, hep, _, _⟩ := hs.free hc
    have hsize := tag_size hs.rest (Laid.rest_lt hs.toLaid) htag
    have halloc := tag_alloc hs.rest htag
    rw [if_neg hc]
    refine ⟨rfl, ?_, ?_, tag_prev hs.rest htag, fun _ => ⟨rfl, ?_⟩, ?_⟩
    · rw [hsize]
      exact hs.rest
    · rw [hsize]
      exact hge
    · rw [ftrp, hsize, hfoot, htag]
    · rw [nextBlkp, hsize, halloc]
      exact ⟨hs.brk.symm, tag_size (dvd_zero 16) (by decide) hep, tag_alloc (dvd_zero 16) hep,
        tag_prev (dvd_zero 16) hep⟩

theorem settled_linked (hs : Settled h bs t c) {id : ℕ} (hid : id < freeListNum) :
    Linked h (h.freeListHeads id) (h.freeListTails id) (listsOf t c id) := by
  have ⟨hhead, htail⟩ := hs.lists id hid
  rw [hhead, htail, listsOf]
  by_cases hc : c ≠ 0 ∧ id = getFreeListHeadId c
  · have ⟨_, _, _, _, hprev, hnext⟩ := hs.free hc.1
    simp only [if_pos hc]
    refine ⟨rfl, rfl, fun k p hp => ?_⟩
    cases k with
    | zero =>
      have hpt : t = p := Option.some.inj hp
      rw [← hpt]
      exact ⟨hnext, hprev⟩
    | succ k => cases hp
  · simp only [if_neg hc]
    exact ⟨rfl, rfl, fun k p hp => by cases hp⟩

/-- The payloads handed out are those of allocated blocks, each handed out once. -/
structure Handed (bs : List Block) (l : List Payload) : Prop where
  mem : ∀ y ∈ l, Block.mk y.start (y.length+8) ∈ bs
  nodup : l.Nodup

/-- Of two blocks one lies behind the other. -/
theorem block_apart {p : ℕ} (hr : Row h p t bs) {b d : Block} (hb : b ∈ bs) (hd : d ∈ bs) (hne : b ≠ d) :
    b.start+b.size ≤ d.start ∨ d.start+d.size ≤ b.start := by
  have hsorted := hr.sorted
  obtain ⟨i, hi, hbi⟩ := List.mem_iff_getElem.mp hb
  obtain ⟨j, hj, hdj⟩ := List.mem_iff_getElem.mp hd
  rw [List.pairwise_iff_getElem] at hsorted
  rcases lt_trichotomy i j with hlt | heq | hgt
  · have hle := hsorted i j hi hj hlt
    rw [hbi, hdj] at hle
    exact .inl hle
  · subst heq
    exact absurd (hbi.symm.trans hdj) hne
  · have hle := hsorted j i hj hi hgt
    rw [hbi, hdj] at hle
    exact .inr hle

theorem handed_apart {p : ℕ} {l : List Payload} (hr : Row h p t bs) (hl : Handed bs l) :
    l.Pairwise Payload.Apart := by
  refine hl.nodup.imp_of_mem fun {y z} hy hz hne => ?_
  have hne' : Block.mk y.start (y.length+8) ≠ ⟨z.start, z.length+8⟩ := by
    intro he
    have ⟨hstart, hlength⟩ := Block.mk.inj he
    have hyz : y = z := by
      cases y
      cases z
      simp only at hstart hlength
      rw [hstart, Nat.add_right_cancel hlength]
    exact hne hyz
  rcases block_apart hr (hl.mem y hy) (hl.mem z hz) hne' with hle | hle
  · exact .inl (by simp only at hle; omega)
  · exact .inr (by simp only at hle; omega)

/-- A payload lies in its block. -/
theorem handed_payload {l : List Payload} (hl : Handed bs l) {y : Payload} (hy : y ∈ l) {x : ℕ}
    (hx : y.Holds x) : ∃ b ∈ bs, b.Payload x :=
  ⟨_, hl.mem y hy, hx.1, by
    have hend := hx.2
    simp only
    omega⟩

theorem settled_integrity {l : List Payload} (hs : Settled h bs t c) (hl : Handed bs l) :
    Integrity h l (blocksOf bs t c) (listsOf t c) := by
  have hsize : getSize h (hdrp h.listp) = dsize := tag_size (dvd_refl 16) (by decide) hs.header
  have hbase : 16 ∣ h.listp+dsize := dvd_add hs.aligned (dvd_refl 16)
  have halloc : ∀ b ∈ bs, getAlloc h (hdrp b.start) = true := by
    intro b hb
    obtain ⟨_, _, _, hdvd, _, htag⟩ := hs.row.mem hb
    exact tag_alloc hdvd htag
  have hmem : ∀ p, p ∈ blocksOf bs t c ↔ (∃ b ∈ bs, b.start = p) ∨ c ≠ 0 ∧ p = t := by
    intro p
    rw [blocksOf, List.mem_append, List.mem_map]
    by_cases hc : c = 0
    · rw [if_pos hc]
      simp [hc]
    · rw [if_neg hc]
      simp [hc]
  have hfree : ∀ p ∈ blocksOf bs t c, getAlloc h (hdrp p) = false → c ≠ 0 ∧ p = t := by
    intro p hp hf
    rcases (hmem p).mp hp with ⟨b, hb, hbp⟩ | hp
    · rw [← hbp, halloc b hb] at hf
      cases hf
    · exact hp
  refine ⟨hs.header, ?_, ?_, fun p hp => ?_, fun id hid => settled_linked hs hid, fun id _ p hp => ?_,
    fun p hp hf => ?_, fun y hy => ?_, handed_apart hs.row hl⟩
  · rw [ftrp, hsize, Nat.add_sub_cancel]
    exact hs.footer
  · rw [nextBlkp, hsize]
    exact settled_tiles hs
  · rcases (hmem p).mp hp with ⟨b, hb, hbp⟩ | hp
    · rw [← hbp]
      exact hs.row.aligned hbase hb
    · rw [hp.2]
      exact hs.end_aligned
  · by_cases hc : c ≠ 0 ∧ id = getFreeListHeadId c
    · rw [listsOf, if_pos hc, List.mem_singleton] at hp
      obtain ⟨_, htag, _⟩ := hs.free hc.1
      rw [hp, tag_size hs.rest (Laid.rest_lt hs.toLaid) htag]
      exact ⟨(hmem t).mpr (.inr ⟨hc.1, rfl⟩), tag_alloc hs.rest htag, hc.2.symm⟩
    · rw [listsOf, if_neg hc] at hp
      cases hp
  · obtain ⟨hc, hpt⟩ := hfree p hp hf
    obtain ⟨_, htag, _⟩ := hs.free hc
    rw [hpt, tag_size hs.rest (Laid.rest_lt hs.toLaid) htag, listsOf, if_pos ⟨hc, rfl⟩]
    exact List.count_singleton_self
  · have hb := hl.mem y hy
    obtain ⟨_, _, _, hdvd, hlt, htag⟩ := hs.row.mem hb
    have hlength : getSize h (hdrp y.start) = y.length+8 := tag_size hdvd hlt htag
    have halive : getAlloc h (hdrp y.start) = true := tag_alloc hdvd htag
    refine ⟨(hmem y.start).mpr (.inl ⟨⟨y.start, y.length+8⟩, hb, rfl⟩), halive, ?_⟩
    rw [nextBlkp, hlength, wsize, Nat.add_assoc]

end Described

/-! ## Filling and copying -/

theorem fill_other (d n : ℕ) (m : Bytes) {x : ℕ} (hx : x < d ∨ d+n ≤ x) : fill d n m x = m x := by
  induction n generalizing d m with
  | zero => rfl
  | succ n ih =>
    rw [fill, ih (d+1) _ (by omega), Function.update_of_ne (by omega)]

theorem copyUp_other (s d n : ℕ) (m : Bytes) {x : ℕ} (hx : x < d ∨ d+n ≤ x) : copyUp s d n m x = m x := by
  induction n generalizing s d m with
  | zero => rfl
  | succ n ih =>
    rw [copyUp, ih (s+1) (d+1) _ (by omega), Function.update_of_ne (by omega)]

theorem copyDown_other (s d n : ℕ) (m : Bytes) {x : ℕ} (hx : x+n < d ∨ d ≤ x) (hd : n ≤ d) :
    copyDown s d n m x = m x := by
  induction n generalizing s d m with
  | zero => rfl
  | succ n ih =>
    rw [copyDown, ih (s-1) (d-1) _ (by omega) (by omega), Function.update_of_ne (by omega)]

theorem memmov_other (dst src n : ℕ) (m : Bytes) {x : ℕ} (hx : x < dst ∨ dst+n ≤ x) :
    memmov dst src n m x = m x := by
  rw [memmov]
  split
  · exact copyDown_other _ _ _ _ (by omega) (by omega)
  · exact copyUp_other _ _ _ _ hx

/-! ## One call -/

section Calls

variable {h h' : Heap} {bs : List Block} {l : List Payload} {t c s t' c' : ℕ}

/-- The new block is handed out. -/
theorem given (hs : Settled h bs t c) (hl : Handed bs l) (hs' : Settled h' (bs++[⟨t, s⟩]) t' c') :
    Handed (bs++[⟨t, s⟩]) (handOut t h' l) ∧ ∃ y ∈ handOut t h' l, y.start = t ∧ y.length+8 = s := by
  have hlow := hs.low_end
  have hlast : Block.mk t s ∈ bs++[⟨t, s⟩] := List.mem_append_right _ List.mem_cons_self
  obtain ⟨_, _, hge, hdvd, hlt, htag⟩ := hs'.row.mem hlast
  have hsize : getSize h' (hdrp t) = s := tag_size hdvd hlt htag
  have hlength : s-wsize+8 = s := by
    rw [wsize]
    simp only at hge
    omega
  rw [handOut, if_neg (by omega), hsize]
  refine ⟨⟨fun y hy => ?_, List.nodup_cons.mpr ⟨fun hin => ?_, hl.nodup⟩⟩, _, List.mem_cons_self, rfl, hlength⟩
  · rcases List.mem_cons.mp hy with hy | hy
    · rw [hy]
      simp only [hlength]
      exact hlast
    · exact List.mem_append_left _ (hl.mem y hy)
  · obtain ⟨_, hend, hpos, _⟩ := hs.row.mem (hl.mem _ hin)
    simp only at hend hpos
    omega

/-- Nothing that was handed out lies behind the last block. -/
theorem handed_below (hs : Settled h bs t c) (hl : Handed bs l) {y : Payload} (hy : y ∈ l) {x : ℕ}
    (hx : y.Holds x) : x+8 < t := by
  have ⟨_, hend, _⟩ := hs.row.mem (hl.mem y hy)
  have hx' := hx.2
  simp only at hend
  omega

/-- Writing inside of the new block. -/
theorem filled (hs' : Settled h' (bs++[⟨t, s⟩]) t' c') {n : ℕ} (hn : n+8 ≤ s) {m : Bytes}
    (hm : ∀ x, x < t ∨ t+n ≤ x → m x = h'.mem x) : Settled { h' with mem := m } (bs++[⟨t, s⟩]) t' c' := by
  refine hs'.congr rfl rfl rfl rfl fun x hout => hm x ?_
  have hnot := hout ⟨t, s⟩ (List.mem_append_right _ List.mem_cons_self)
  rw [Block.Payload] at hnot
  simp only at hnot
  omega

theorem handed_take (hl : Handed bs l) (q : ℕ) : Handed bs (takeBack q l) :=
  ⟨fun y hy => hl.mem y (List.mem_filter.mp hy).1, hl.nodup.filter _⟩

/-- What holds after a call with the result `p`. -/
structure Outcome (l : List Payload) (h : Heap) (call : Call) (p : ℕ) (h' : Heap) : Prop where
  settled : ∃ bs t c, Settled h' bs t c ∧ Handed bs (handedAfter l p h' call)
  kept : ∀ y ∈ l, ∀ x, y.Holds x → h'.mem x = h.mem x
  room : p ≠ 0 → ∃ y ∈ handedAfter l p h' call, y.start = p ∧ requested call ≤ y.length

theorem outcome_same (hs : Settled h bs t c) {call : Call} (hl : Handed bs (handedAfter l 0 h call)) :
    Outcome l h call 0 h :=
  ⟨⟨bs, t, c, hs, hl⟩, fun _ _ _ _ => rfl, fun hn => absurd rfl hn⟩

theorem malloc_outcome (fuel : ℕ) (answer : Answer) (hs : Settled h bs t c) (hl : Handed bs l) {size : ℕ}
    (hsize : size+23 < 2^64) :
    ∃ p h', malloc (fuel+2) answer size h = some (p, h') ∧ Outcome l h (.malloc size) p h' := by
  rcases malloc_settled fuel answer hs hsize with he | ⟨s, t', c', h', he, hroom, hs', hm, _⟩
  · exact ⟨0, h, he, outcome_same hs hl⟩
  · have ⟨hl', y, hy, hstart, hlength⟩ := given hs hl hs'
    exact ⟨t, h', he, ⟨_, t', c', hs', hl'⟩, fun y hy x hx => hm x (handed_below hs hl hy hx),
      fun _ => ⟨y, hy, hstart, show size ≤ y.length by omega⟩⟩

theorem calloc_outcome (fuel : ℕ) (answer : Answer) (hs : Settled h bs t c) (hl : Handed bs l) {nmemb size : ℕ}
    (hsize : size*nmemb+23 < 2^64) :
    ∃ p h', calloc (fuel+2) answer nmemb size h = some (p, h') ∧ Outcome l h (.calloc nmemb size) p h' := by
  have hmod : size*nmemb%2^64 = size*nmemb := Nat.mod_eq_of_lt (by omega)
  have hlow := hs.low_end
  rw [calloc]
  simp only [hmod]
  rcases malloc_settled fuel answer hs hsize with he | ⟨s, t', c', h', he, hroom, hs', hm, _⟩
  · rw [he]
    exact ⟨0, h, rfl, outcome_same hs hl⟩
  · have hfill : ∀ x, x < t ∨ t+size*nmemb%2^32 ≤ x →
        fill t (size*nmemb%2^32) h'.mem x = h'.mem x := fun x hx => fill_other _ _ _ hx
    have hle : size*nmemb%2^32 ≤ size*nmemb := Nat.mod_le _ _
    have hs'' := filled hs' (by omega) hfill
    have ⟨hl', y, hy, hstart, hlength⟩ := given hs hl hs''
    rw [he]
    refine ⟨t, memset t (size*nmemb) h', ?_, ⟨_, t', c', hs'', hl'⟩, fun y hy x hx => ?_,
      fun _ => ⟨y, hy, hstart, show size*nmemb ≤ y.length by omega⟩⟩
    · simp only [Option.map_some]
      rw [if_pos (by omega)]
    · have hbelow := handed_below hs hl hy hx
      exact (hfill x (.inl (by omega))).trans (hm x hbelow)

theorem realloc_outcome (fuel : ℕ) (answer : Answer) (hs : Settled h bs t c) (hl : Handed bs l) {q size : ℕ}
    (hc : Allowed l (.realloc q size)) :
    ∃ p h', realloc (fuel+2) answer q size h = some (p, h') ∧ Outcome l h (.realloc q size) p h' := by
  have hlow := hs.low_end
  by_cases hq : q = 0
  · rw [Allowed, if_pos hq] at hc
    have hafter : ∀ p h', handedAfter l p h' (.realloc q size) = handOut p h' l := fun p h' => if_pos hq
    rw [realloc, if_pos hq]
    obtain ⟨p, h', he, hset, hkept, hroom⟩ := malloc_outcome fuel answer hs hl hc
    refine ⟨p, h', he, ?_, hkept, ?_⟩
    · rw [hafter]
      exact hset
    · rw [hafter]
      exact hroom
  · rw [Allowed, if_neg hq] at hc
    obtain ⟨⟨y, hy, hyq⟩, hwrap, hwrap'⟩ := hc
    rw [realloc, if_neg hq]
    by_cases hz : size = 0
    · rw [if_pos hz]
      refine ⟨0, h, rfl, outcome_same hs ?_⟩
      rw [handedAfter, if_neg hq, if_pos hz]
      exact handed_take hl q
    · have hafter : ∀ p h', p ≠ 0 → handedAfter l p h' (.realloc q size) = handOut p h' (takeBack q l) := by
        intro p h' hp
        rw [handedAfter, if_neg hq, if_neg hz, if_neg hp]
      have hblock := hl.mem y hy
      obtain ⟨_, _, _, hdvd, hlt, htag⟩ := hs.row.mem hblock
      have hold : getSize h (hdrp q) = y.length+8 := by
        rw [← hyq]
        exact tag_size hdvd hlt htag
      have hnew : (size+2*dsize-1)%2^64/dsize*dsize = (size+31)/16*16 := by
        rw [dsize, Nat.mod_eq_of_lt (by omega)]
        rfl
      rw [if_neg hz]
      simp only [hold, hnew]
      by_cases hfits : y.length+8 ≥ (size+31)/16*16
      · -- the block is large enough
        rw [if_pos hfits]
        have hout : handOut q h (takeBack q l) = ⟨q, y.length⟩ :: takeBack q l := by
          rw [handOut, if_neg hq, hold, wsize, Nat.add_sub_cancel]
        have htake := handed_take hl q
        refine ⟨q, h, rfl, ⟨bs, t, c, hs, ?_⟩, fun _ _ _ _ => rfl, fun _ => ?_⟩
        · rw [hafter q h hq, hout]
          refine ⟨fun z hz' => ?_, List.nodup_cons.mpr ⟨fun hin => ?_, htake.nodup⟩⟩
          · rcases List.mem_cons.mp hz' with hz' | hz'
            · rw [hz', ← hyq]
              exact hblock
            · exact htake.mem z hz'
          · have hne := (List.mem_filter.mp hin).2
            rw [decide_eq_true_eq] at hne
            exact hne rfl
        · rw [hafter q h hq, hout]
          exact ⟨_, List.mem_cons_self, rfl, show size ≤ y.length by omega⟩
      · rw [if_neg hfits]
        rcases malloc_settled fuel answer hs hwrap' with he | ⟨s, t', c', h', he, hroom, hs', hm, _⟩
        · rw [he]
          refine ⟨0, h, rfl, outcome_same hs ?_⟩
          rw [handedAfter, if_neg hq, if_neg hz, if_pos rfl]
          exact hl
        · have hcopy : ∀ x, x < t ∨ t+(y.length+8)%2^32 ≤ x →
              memmov t q ((y.length+8)%2^32) h'.mem x = h'.mem x := fun x hx => memmov_other _ _ _ _ hx
          have hle : (y.length+8)%2^32 ≤ y.length+8 := Nat.mod_le _ _
          have hs'' := filled hs' (by omega) hcopy
          obtain ⟨hl', z, hz', hstart, hlength⟩ := given hs (handed_take hl q) hs''
          have hmin : (if (size+31)/16*16 < y.length+8 then (size+31)/16*16 else y.length+8) = y.length+8 :=
            if_neg (by omega)
          have ht : t ≠ 0 := by omega
          rw [he]
          refine ⟨t, memcpy t q (y.length+8) h', ?_, ⟨_, t', c', hs'', ?_⟩, fun y hy x hx => ?_, fun _ => ?_⟩
          · obtain ⟨k, hk⟩ := Nat.exists_eq_succ_of_ne_zero ht
            rw [hk]
            simp only [hmin]
            rfl
          · rw [hafter t _ ht]
            exact hl'
          · have hbelow := handed_below hs hl hy hx
            exact (hcopy x (.inl (by omega))).trans (hm x hbelow)
          · rw [hafter t _ ht]
            exact ⟨z, hz', hstart, show size ≤ z.length by omega⟩

/-- Every call returns. -/
theorem call_outcome (fuel : ℕ) (answer : Answer) (hs : Settled h bs t c) (hl : Handed bs l) {call : Call}
    (hc : Allowed l call) :
    ∃ p h', call.run (fuel+2) answer h = some (p, h') ∧ Outcome l h call p h' := by
  cases call with
  | malloc size => exact malloc_outcome fuel answer hs hl hc
  | calloc nmemb size => exact calloc_outcome fuel answer hs hl hc
  | realloc q size => exact realloc_outcome fuel answer hs hl hc
  | free q => exact ⟨0, h, rfl, outcome_same hs (handed_take hl q)⟩

end Calls

/-! ## Runs -/

theorem reachable_settled {fuel : ℕ} {s : State} (h : Reachable (fuel+2) s) :
    ∃ bs t c, Settled s.heap bs t c ∧ Handed bs s.handed := by
  induction h with
  | init hbrk hinit =>
    have ⟨t, ht⟩ := init_settled hbrk hinit
    exact ⟨[], t, 4096, ht, ⟨fun y hy => absurd hy List.not_mem_nil, List.nodup_nil⟩⟩
  | @call s call answer p h' _ hc hrun ih =>
    have ⟨bs, t, c, hs, hl⟩ := ih
    have ⟨r, h'', he, hout⟩ := call_outcome fuel answer hs hl hc
    rw [hrun] at he
    cases he
    exact hout.settled
  | store _ hm ih =>
    have ⟨bs, t, c, hs, hl⟩ := ih
    refine ⟨bs, t, c, hs.congr rfl rfl rfl rfl fun x hout => hm x fun y hy hx => ?_, hl⟩
    have ⟨b, hb, hin⟩ := handed_payload hl hy hx
    exact hout b hb hin

/-- After any sequence of calls and stores the heap is intact; the next call
returns, gives an aligned pointer to enough bytes or none, and leaves every
payload as it was. -/
theorem heap_run {fuel : ℕ} {s : State} (h : Reachable (fuel+2) s) :
    (∃ blocks lists, Integrity s.heap s.handed blocks lists) ∧
    ∀ c answer, Allowed s.handed c → ∃ p h', c.run (fuel+2) answer s.heap = some (p, h') ∧
      (p ≠ 0 → 16 ∣ p ∧ ∃ y ∈ handedAfter s.handed p h' c, y.start = p ∧ requested c ≤ y.length) ∧
      ∀ y ∈ s.handed, ∀ x, y.Holds x → h'.mem x = s.heap.mem x := by
  have ⟨bs, t, c, hs, hl⟩ := reachable_settled h
  refine ⟨⟨_, _, settled_integrity hs hl⟩, fun call answer hc => ?_⟩
  have ⟨p, h', he, hout⟩ := call_outcome fuel answer hs hl hc
  refine ⟨p, h', he, fun hp => ?_, hout.kept⟩
  have ⟨y, hy, hstart, hlength⟩ := hout.room hp
  obtain ⟨bs', t', c', hs', hl'⟩ := hout.settled
  have haligned := hs'.row.aligned (dvd_add hs'.aligned (dvd_refl 16)) (hl'.mem y hy)
  rw [hstart] at haligned
  exact ⟨haligned, y, hy, hstart, hlength⟩

/-- A process before `malloc_init`, with its break at 4096. -/
def blank : Heap := ⟨fun _ => 0, 0, fun _ => 0, fun _ => 0, 4096⟩

def booted : Heap := (mallocInit (some fun _ => 0) (some fun _ => 0) blank).2

theorem booted_reachable (fuel : ℕ) : Reachable fuel ⟨booted, []⟩ :=
  @Reachable.init fuel (some fun _ => 0) (some fun _ => 0) blank booted (by decide) (Prod.ext rfl rfl)

theorem heap_run_booted :
    (∃ blocks lists, Integrity booted [] blocks lists) ∧
    ∀ c answer, Allowed [] c → ∃ p h', c.run 2 answer booted = some (p, h') ∧
      (p ≠ 0 → 16 ∣ p ∧ ∃ y ∈ handedAfter [] p h' c, y.start = p ∧ requested c ≤ y.length) ∧
      ∀ y ∈ ([] : List Payload), ∀ x, y.Holds x → h'.mem x = booted.mem x :=
  heap_run (booted_reachable 2)

end BabyOS.HeapIntegrity
