import BabyOS.FreeLists
import BabyOS.HeapIntegrity

/-!
# Searching a fit and placing a block

`find_fit` walks the lists from the class of the request on; the classes grow with
the sizes, so no free block that is large enough lies in an earlier one. What `place`
cuts off goes to the class of its own size.
-/

set_option autoImplicit false

namespace BabyOS.HeapFitting
open BabyOS.ByteWords BabyOS.HeapMachine BabyOS.HeapBlocks BabyOS.LinkedLists BabyOS.FreeLists

variable {h h' : Heap} {bs cs ds : List Piece} {lists : ℕ → List ℕ} {p size a : ℕ}

/-! ## The search -/

/-- The block at `x` is large enough. -/
def fits (h : Heap) (a x : ℕ) : Bool := decide (a ≤ getSize h (hdrp x))

theorem find_list {l : List ℕ} {before : Option ℕ} {fuel : ℕ} (hc : Chain (linksOf h) before l none)
    (hn : ∀ x ∈ l, Node x) (hfuel : l.length < fuel) :
    findIn a h fuel (l.headD 0) = some ((l.find? (fits h a)).getD 0) := by
  induction l generalizing before fuel with
  | nil =>
    obtain ⟨n, rfl⟩ := Nat.exists_eq_add_of_lt hfuel
    rfl
  | cons x l ih =>
    obtain ⟨n, rfl⟩ := Nat.exists_eq_add_of_lt hfuel
    obtain ⟨-, hnext, hrest⟩ := hc
    have hx := (hn x List.mem_cons_self).ne
    have hl : ∀ w ∈ l, Node w := fun w hw => hn w (List.mem_cons_of_mem _ hw)
    have hlink : getNextLink h x = l.headD 0 := by
      rw [linksOf_next, Option.or_none, ← pointer_head fun w hw => (hl w hw).ne] at hnext
      exact pointer_inj hnext
    rw [List.headD_cons, findIn, if_neg hx, List.find?_cons]
    by_cases hfit : a ≤ getSize h (hdrp x)
    · rw [if_pos hfit, fits, decide_eq_true hfit]
      rfl
    · rw [if_neg hfit, hlink, ih hrest hl (by rw [List.length_cons]; omega), fits, decide_eq_false hfit]

theorem find_from (hlinked : ∀ id < freeListNum, FreeList h (h.freeListHeads id) (h.freeListTails id) (lists id))
    (hn : ∀ id < freeListNum, ∀ x ∈ lists id, Node x) {fuel : ℕ}
    (hfuel : ∀ id < freeListNum, (lists id).length < fuel) {n id : ℕ} (hid : id+n = freeListNum) :
    findFrom fuel a h n id = some ((((List.range' id n).flatMap lists).find? (fits h a)).getD 0) := by
  induction n generalizing id with
  | zero => rfl
  | succ n ih =>
    have hlt : id < freeListNum := by omega
    have hl := hlinked id hlt
    rw [findFrom, hl.head, find_list hl.chain (hn id hlt) (hfuel id hlt), List.range'_succ, List.flatMap_cons,
      List.find?_append]
    cases hfound : (lists id).find? (fits h a) with
    | none => exact ih (by omega)
    | some x =>
      have hx := (hn id hlt x (List.mem_of_find?_eq_some hfound)).ne
      obtain ⟨m, rfl⟩ := Nat.exists_eq_succ_of_ne_zero hx
      rfl

/-- The block that the search returns, or 0. -/
def found (h : Heap) (lists : ℕ → List ℕ) (a : ℕ) : ℕ :=
  (((List.range' (getFreeListHeadId a) (freeListNum-getFreeListHeadId a)).flatMap lists).find? (fits h a)).getD 0

theorem find_found (he : Exact h bs lists) {fuel : ℕ} (hfuel : ∀ id < freeListNum, (lists id).length < fuel) :
    findFit fuel a h = some (found h lists a) := by
  have hid := headId_lt a
  exact find_from he.linked (fun id hid x hx => he.listed hid hx) hfuel (by omega)

theorem found_spec (he : Exact h bs lists) :
    (found h lists a = 0 ∧ ∀ b ∈ bs, b.alloc = false → b.size < a) ∨
      ∃ b ∈ bs, found h lists a = b.start ∧ b.alloc = false ∧ a ≤ b.size := by
  have hrange : ∀ id, id ∈ List.range' (getFreeListHeadId a) (freeListNum-getFreeListHeadId a) ↔
      getFreeListHeadId a ≤ id ∧ id < freeListNum := by
    intro id
    have hid := headId_lt a
    rw [List.mem_range'_1]
    omega
  cases hfound : ((List.range' (getFreeListHeadId a) (freeListNum-getFreeListHeadId a)).flatMap lists).find?
    (fits h a) with
  | none =>
    refine .inl ⟨by rw [found, hfound]; rfl, fun b hb hfree => ?_⟩
    by_contra hlt
    have hle : a ≤ b.size := not_lt.mp hlt
    have hid := headId_lt b.size
    have hin : b.start ∈ (List.range' (getFreeListHeadId a) (freeListNum-getFreeListHeadId a)).flatMap lists :=
      List.mem_flatMap.mpr ⟨getFreeListHeadId b.size, (hrange _).mpr ⟨headId_mono hle, hid⟩,
        (he.mem _ hid _).mpr ⟨b, hb, rfl, hfree, rfl⟩⟩
    have hno := List.find?_eq_none.mp hfound b.start hin
    rw [fits, he.size hb, decide_eq_true_eq] at hno
    exact hno hle
  | some x =>
    obtain ⟨id, hid, hx⟩ := List.mem_flatMap.mp (List.mem_of_find?_eq_some hfound)
    obtain ⟨b, hb, hstart, hfree, -⟩ := (he.mem id ((hrange id).mp hid).2 x).mp hx
    have hfit := List.find?_some hfound
    rw [fits, ← hstart, he.size hb, decide_eq_true_eq] at hfit
    exact .inr ⟨b, hb, by rw [found, hfound, hstart]; rfl, hfree, hfit⟩

/-! ## Placing -/

/-- The blocks in front of `x`, its header, and the blocks behind it. -/
theorem Loose.split {x : Piece} (hs : Loose h bs x cs lists) : ∃ prev last,
    Tiled h (h.listp+dsize) true bs x.start prev ∧ 16 ∣ x.size ∧ 32 ≤ x.size ∧
      get h (hdrp x.start) = pack x.size prev x.alloc ∧ Tiled h (x.start+x.size) x.alloc cs h.brk last ∧
      get h (hdrp h.brk) = pack 0 last true := by
  obtain ⟨last, ht, hep⟩ := hs.tiled
  obtain ⟨m, prev, hleft, hstart, hdvd, hge, htag, hright⟩ := tiled_append.mp ht
  rw [← hstart] at hleft htag hright
  exact ⟨prev, last, hleft, hdvd, hge, htag, hright, hep⟩

/-- Where the links of the listed blocks are. -/
theorem Loose.links_apart {x : Piece} (hs : Loose h bs x cs lists) {id w : ℕ} (hid : id < freeListNum)
    (hw : w ∈ lists id) : w+32 ≤ x.start ∨ ∃ b ∈ cs, b.start = w ∧ x.start+x.size ≤ w := by
  obtain ⟨b, hb, rfl, -⟩ := (hs.mem id hid w).mp hw
  obtain ⟨prev, last, hleft, -, -, -, hright, -⟩ := Loose.split hs
  rcases List.mem_append.mp hb with hb | hb
  · obtain ⟨-, hend, hge, -⟩ := hleft.mem hb
    exact .inl (by omega)
  · exact .inr ⟨b, hb, rfl, (hright.mem hb).1⟩

/-- An allocated block is in no list. -/
theorem free_middle {y : Piece} {w id : ℕ} (hy : y.alloc = true) :
    (∃ b ∈ bs++y :: cs, b.start = w ∧ b.alloc = false ∧ getFreeListHeadId b.size = id) ↔
      ∃ b ∈ bs++cs, b.start = w ∧ b.alloc = false ∧ getFreeListHeadId b.size = id := by
  constructor
  · rintro ⟨b, hb, hstart, hfree, hc⟩
    rcases mem_middle.mp hb with rfl | hb
    · rw [hfree] at hy
      cases hy
    · exact ⟨b, hb, hstart, hfree, hc⟩
  · rintro ⟨b, hb, hfacts⟩
    exact ⟨b, mem_middle.mpr (.inr hb), hfacts⟩

/-- The words after the front of the block at `p` is cut off, before the rest is put in its
list. -/
theorem cut_words {prev : Bool} (hpdvd : 16 ∣ p) (hplow : 16 ≤ p) (hdvd : 16 ∣ size) (hlt : size < 2^64)
    (htag : get h (hdrp p) = pack size prev false) (ha : 16 ∣ a) (hge : 32 ≤ a) (hle : a+32 ≤ size) :
    ∃ g, place p a h = freeListInsert (p+a) g ∧ SameFrame h g ∧
      (∀ q, q+8 ≤ hdrp p ∨ hdrp (p+size) ≤ q → get g q = get h q) ∧
      get g (hdrp p) = pack a prev true ∧ get g (hdrp (p+a)) = pack (size-a) true false := by
  have hrest : 16 ∣ size-a := Nat.dvd_sub hdvd ha
  have hsize : getSize h (hdrp p) = size := tag_size hdvd hlt htag
  have hprev : getPrevAlloc h (hdrp p) = prev := tag_prev hdvd htag
  have hminus : minus size a = size-a := minus_eq (by omega) hlt
  -- the block
  let h₁ := put (hdrp p) (pack a prev true) h
  have htag₁ : get h₁ (hdrp p) = pack a prev true := get_put_tag ha (by omega)
  have hsize₁ : getSize h₁ (hdrp p) = a := tag_size ha (by omega) htag₁
  have hprev₁ : getPrevAlloc h₁ (hdrp p) = prev := tag_prev ha htag₁
  let h₂ := put (p+a-dsize) (pack a prev true) h₁
  have htag₂ : get h₂ (hdrp p) = pack a prev true := by
    rw [get_put_other (by rw [hdrp, wsize, dsize]; omega)]
    exact htag₁
  have hsize₂ : getSize h₂ (hdrp p) = a := tag_size ha (by omega) htag₂
  -- what is left
  let h₃ := put (hdrp (p+a)) (pack (size-a) true false) h₂
  have htag₃ : get h₃ (hdrp (p+a)) = pack (size-a) true false := get_put_tag hrest (by omega)
  have hsize₃ : getSize h₃ (hdrp (p+a)) = size-a := tag_size hrest (by omega) htag₃
  have halloc₃ : getAlloc h₃ (hdrp (p+a)) = false := tag_alloc hrest htag₃
  let h₄ := put (p+a+(size-a)-dsize) (pack (size-a) true false) h₃
  have heq : place p a h = freeListInsert (p+a) h₄ := by
    rw [place]
    simp only [hsize, hprev, hminus, ftrp, nextBlkp]
    rw [if_pos (by rw [dsize]; omega)]
    change (freeListInsert (p+getSize (put (p+getSize h₁ (hdrp p)-dsize)
      (pack a (getPrevAlloc h₁ (hdrp p)) true) h₁) (hdrp p)) _) = _
    rw [hsize₁, hprev₁]
    change (freeListInsert (p+getSize h₂ (hdrp p)) (if (!getAlloc (put (hdrp (p+getSize h₂ (hdrp p)))
      (pack (size-a) true false) h₂) (hdrp (p+getSize h₂ (hdrp p)))) = true then _ else _)) = _
    rw [hsize₂]
    change (freeListInsert (p+a) (if (!getAlloc h₃ (hdrp (p+a))) = true then
      put (p+a+getSize h₃ (hdrp (p+a))-dsize) (pack (size-a) true false) h₃ else h₃)) = _
    rw [halloc₃, hsize₃]
    rfl
  have hout : ∀ q, q+8 ≤ hdrp p ∨ hdrp (p+size) ≤ q → get h₄ q = get h q := by
    intro q hq
    rw [hdrp, hdrp, wsize] at hq
    rw [get_put_other (by rw [dsize]; omega), get_put_other (by rw [hdrp, wsize]; omega),
      get_put_other (by rw [dsize]; omega), get_put_other (by rw [hdrp, wsize]; omega)]
  have htag₄ : get h₄ (hdrp p) = pack a prev true := by
    rw [get_put_other (by rw [hdrp, wsize, dsize]; omega), get_put_other (by rw [hdrp, hdrp, wsize]; omega)]
    exact htag₂
  have hnext₄ : get h₄ (hdrp (p+a)) = pack (size-a) true false := by
    rw [get_put_other (by rw [hdrp, wsize, dsize]; omega)]
    exact htag₃
  exact ⟨h₄, heq, ⟨rfl, rfl, rfl, rfl⟩, hout, htag₄, hnext₄⟩

/-- The front of the block at `p` is cut off, and the rest is not in its list yet. -/
theorem cut_loose (hs : Loose h bs ⟨p, size, false⟩ cs lists) (ha : 16 ∣ a) (hge : 32 ≤ a) (hle : a+32 ≤ size) :
    ∃ g, place p a h = freeListInsert (p+a) g ∧
      Loose g (bs++[⟨p, a, true⟩]) ⟨p+a, size-a, false⟩ cs lists := by
  obtain ⟨prev, last, hleft, hdvd, -, htag, hright, hep⟩ := Loose.split hs
  have hbound := hs.bound
  have hpn := hs.node (mem_middle.mpr (.inl rfl))
  have hplow := hpn.low
  have hpdvd := hpn.dvd
  have hend := hright.le
  dsimp only at hleft hdvd htag hright hpdvd hplow hend
  have hlt : size < 2^64 := by omega
  have hrest : 16 ∣ size-a := Nat.dvd_sub hdvd ha
  obtain ⟨h₄, heq, hframe, hout, htag₄, hnext₄⟩ := cut_words hpdvd hplow hdvd hlt htag ha hge hle
  have hsum : p+a+(size-a) = p+size := by omega
  refine ⟨h₄, heq, ?_, ⟨last, ?_, ?_⟩, ?_, fun id hid => ?_, fun id hid w => ?_⟩
  · rw [hframe.listp]
    exact hs.aligned
  · rw [hframe.listp, hframe.brk, List.append_assoc, tiled_append]
    refine ⟨p, prev, hleft.congr fun b hb => hout _ (.inl ?_), rfl, ha, hge, htag₄, rfl, hrest, ?_, hnext₄, ?_⟩
    · have hb' := hleft.mem hb
      rw [hdrp, hdrp, wsize]
      omega
    · dsimp only
      omega
    · dsimp only
      rw [hsum]
      refine hright.congr fun b hb => hout _ (.inr ?_)
      have hb' := hright.mem hb
      rw [hdrp, hdrp, wsize]
      omega
  · rw [hframe.brk, hout _ (.inr (by rw [hdrp, hdrp, wsize]; omega))]
    exact hep
  · rw [hframe.brk]
    exact hbound
  · rw [hframe.heads, hframe.tails]
    refine (hs.linked id hid).congr fun w hw => ?_
    have hapart := Loose.links_apart hs hid hw
    dsimp only at hapart
    constructor
    · refine hout w ?_
      rw [hdrp, hdrp, wsize]
      rcases hapart with hlow | ⟨b, -, -, hhigh⟩
      · omega
      · omega
    · refine hout (w+8) ?_
      rw [hdrp, hdrp, wsize]
      rcases hapart with hlow | ⟨b, -, -, hhigh⟩
      · omega
      · omega
  · rw [hs.mem id hid w, List.append_assoc]
    exact (free_middle rfl).symm

/-- The whole block is taken: its header, and the one behind it. -/
theorem whole_words {prev al : Bool} {s : ℕ} (hp : 16 ∣ p) (hplow : 16 ≤ p) (hdvd : 16 ∣ size) (hge : 32 ≤ size)
    (hlt : size < 2^64) (htag : get h (hdrp p) = pack size prev false) (hsdvd : 16 ∣ s) (hslt : s < 2^64)
    (hnext : get h (hdrp (p+size)) = pack s false al) (hfree : al = false → 32 ≤ s) (hle : a ≤ size)
    (hsmall : size < a+32) :
    SameFrame h (place p a h) ∧ get (place p a h) (hdrp p) = pack size prev true ∧
      get (place p a h) (hdrp (p+size)) = pack s true al ∧
      ∀ q, q+8 ≤ hdrp p ∨ p+size ≤ q → (al = false → q+8 ≤ p+size+s-dsize ∨ hdrp (p+size+s) ≤ q) →
        get (place p a h) q = get h q := by
  have hsize : getSize h (hdrp p) = size := tag_size hdvd hlt htag
  have hprev : getPrevAlloc h (hdrp p) = prev := tag_prev hdvd htag
  have hminus : minus size a = size-a := minus_eq hle hlt
  let h₁ := put (hdrp p) (pack size prev true) h
  have htag₁ : get h₁ (hdrp p) = pack size prev true := get_put_tag hdvd hlt
  have hsize₁ : getSize h₁ (hdrp p) = size := tag_size hdvd hlt htag₁
  have hprev₁ : getPrevAlloc h₁ (hdrp p) = prev := tag_prev hdvd htag₁
  let h₂ := put (p+size-dsize) (pack size prev true) h₁
  have htag₂ : get h₂ (hdrp p) = pack size prev true := by
    rw [get_put_other (by rw [hdrp, wsize, dsize]; omega)]
    exact htag₁
  have hsize₂ : getSize h₂ (hdrp p) = size := tag_size hdvd hlt htag₂
  have hnext₂ : get h₂ (hdrp (p+size)) = pack s false al := by
    rw [get_put_other (by rw [hdrp, wsize, dsize]; omega), get_put_other (by rw [hdrp, hdrp, wsize]; omega)]
    exact hnext
  have hs₂ : getSize h₂ (hdrp (p+size)) = s := tag_size hsdvd hslt hnext₂
  have hal₂ : getAlloc h₂ (hdrp (p+size)) = al := tag_alloc hsdvd hnext₂
  let h₃ := put (hdrp (p+size)) (pack s true al) h₂
  have hnext₃ : get h₃ (hdrp (p+size)) = pack s true al := get_put_tag hsdvd hslt
  have hs₃ : getSize h₃ (hdrp (p+size)) = s := tag_size hsdvd hslt hnext₃
  have hal₃ : getAlloc h₃ (hdrp (p+size)) = al := tag_alloc hsdvd hnext₃
  let h₄ := if (!al) = true then put (p+size+s-dsize) (pack s true al) h₃ else h₃
  have heq : place p a h = h₄ := by
    rw [place]
    simp only [hsize, hprev, hminus, ftrp, nextBlkp]
    rw [if_neg (by rw [dsize]; omega)]
    change (if (!getAlloc (put (hdrp (p+getSize (put (p+getSize h₁ (hdrp p)-dsize)
      (pack size (getPrevAlloc h₁ (hdrp p)) true) h₁) (hdrp p))) _ _) _) = true then _ else _) = _
    rw [hsize₁, hprev₁]
    change (if (!getAlloc (put (hdrp (p+getSize h₂ (hdrp p))) (pack (getSize h₂ (hdrp (p+getSize h₂ (hdrp p))))
      true (getAlloc h₂ (hdrp (p+getSize h₂ (hdrp p))))) h₂) (hdrp (p+getSize h₂ (hdrp p)))) = true then _
      else put (hdrp (p+getSize h₂ (hdrp p))) (pack (getSize h₂ (hdrp (p+getSize h₂ (hdrp p))))
      true (getAlloc h₂ (hdrp (p+getSize h₂ (hdrp p))))) h₂) = _
    rw [hsize₂, hs₂, hal₂]
    change (if (!getAlloc h₃ (hdrp (p+size))) = true then put (p+size+getSize h₃ (hdrp (p+size))-dsize)
      (pack (getSize h₃ (hdrp (p+size))) true (getAlloc h₃ (hdrp (p+size)))) h₃ else h₃) = _
    rw [hal₃, hs₃]
  have hframe : SameFrame h h₃ := ⟨rfl, rfl, rfl, rfl⟩
  have hfoot : ∀ q, (al = false → q+8 ≤ p+size+s-dsize ∨ hdrp (p+size+s) ≤ q) → get h₄ q = get h₃ q := by
    intro q hq
    cases al with
    | false =>
      have hge := hfree rfl
      have hq' := hq rfl
      rw [hdrp, wsize] at hq'
      exact get_put_other (by rw [dsize] at hq' ⊢; omega)
    | true => rfl
  rw [heq]
  refine ⟨same_ite _ _ hframe, ?_, ?_, fun q hq hq' => ?_⟩
  · rw [hfoot _ (fun hal => .inl (by rw [hdrp, wsize, dsize]; omega)),
      get_put_other (by rw [hdrp, hdrp, wsize]; omega)]
    exact htag₂
  · rw [hfoot _ (fun hal => .inl (by have hge := hfree hal; rw [hdrp, wsize, dsize]; omega))]
    exact hnext₃
  · rw [hdrp, wsize] at hq
    rw [hfoot q hq', get_put_other (by rw [hdrp, wsize]; omega), get_put_other (by rw [dsize]; omega),
      get_put_other (by rw [hdrp, wsize]; omega)]

/-- A block is taken where its header says so, the blocks behind it do, and nothing else is different. -/
theorem taken_exact {g : Heap} (hs : Loose h bs ⟨p, size, false⟩ cs lists) (hframe : SameFrame h g)
    (hlow : ∀ q, q+8 ≤ hdrp p → get g q = get h q)
    (htag : ∀ prev, get h (hdrp p) = pack size prev false → get g (hdrp p) = pack size prev true)
    (hright : ∃ last, Tiled g (p+size) true cs h.brk last ∧ get g (hdrp h.brk) = pack 0 last true)
    (hlinks : ∀ b ∈ cs, get g b.start = get h b.start ∧ get g (b.start+8) = get h (b.start+8)) :
    Exact g (bs++⟨p, size, true⟩ :: cs) lists := by
  obtain ⟨prev, -, hleft, hdvd, hge, hold, -⟩ := Loose.split hs
  dsimp only at hleft hdvd hge hold
  obtain ⟨last, hright, hep⟩ := hright
  have hfirst : ∀ b ∈ bs, get g (hdrp b.start) = get h (hdrp b.start) := by
    intro b hb
    have hb' := hleft.mem hb
    refine hlow _ ?_
    rw [hdrp, hdrp, wsize]
    omega
  refine ⟨?_, ⟨last, ?_, ?_⟩, ?_, fun id hid => ?_, fun id hid w => ?_⟩
  · rw [hframe.listp]
    exact hs.aligned
  · rw [hframe.listp, hframe.brk, tiled_append]
    exact ⟨p, prev, hleft.congr hfirst, rfl, hdvd, hge, htag prev hold, hright⟩
  · rw [hframe.brk]
    exact hep
  · rw [hframe.brk]
    exact hs.bound
  · rw [hframe.heads, hframe.tails]
    refine (hs.linked id hid).congr fun w hw => ?_
    rcases Loose.links_apart hs hid hw with hw' | ⟨b, hb, rfl, -⟩
    · dsimp only at hw'
      exact ⟨hlow w (by rw [hdrp, wsize]; omega), hlow (w+8) (by rw [hdrp, wsize]; omega)⟩
    · exact hlinks b hb
  · rw [hs.mem id hid w]
    exact (free_middle rfl).symm

/-- The block is taken as a whole, and what is behind it learns that it is allocated. -/
theorem whole_exact (hs : Loose h bs ⟨p, size, false⟩ cs lists) (hle : a ≤ size) (hsmall : size < a+32) :
    Exact (place p a h) (bs++⟨p, size, true⟩ :: cs) lists := by
  obtain ⟨prev, last, -, hdvd, hge, htag, hright, hep⟩ := Loose.split hs
  have hbound := hs.bound
  have hpn := hs.node (mem_middle.mpr (.inl rfl))
  have hplow := hpn.low
  have hpdvd := hpn.dvd
  have hend := hright.le
  dsimp only at hdvd hge htag hright hpdvd hplow hend
  have hlt : size < 2^64 := by omega
  have htags : ∀ prev', get h (hdrp p) = pack size prev' false → prev' = prev :=
    fun prev' htag' => (tag_prev hdvd htag').symm.trans (tag_prev hdvd htag)
  cases cs with
  | nil =>
    obtain ⟨htop, hlast⟩ := hright
    have hnext : get h (hdrp (p+size)) = pack 0 false true := by
      rw [htop, hlast]
      exact hep
    obtain ⟨hframe, htag', hnext', hout⟩ := whole_words hpdvd hplow hdvd hge hlt htag (dvd_zero 16)
      (Nat.two_pow_pos 64) hnext (fun hn => nomatch hn) hle hsmall
    refine taken_exact hs hframe (fun q hq => hout q (.inl hq) fun hn => nomatch hn) (fun prev' hold => ?_)
      ⟨true, ⟨htop, rfl⟩, ?_⟩ (fun b hb => nomatch hb)
    · rw [htags prev' hold]
      exact htag'
    · rw [← htop]
      exact hnext'
  | cons c cs =>
    obtain ⟨hstart, hcdvd, hcge, hctag, hrest⟩ := hright
    have hcend := hrest.le
    obtain ⟨hframe, htag', hnext', hout⟩ := whole_words hpdvd hplow hdvd hge hlt htag hcdvd
      (by omega) hctag (fun _ => hcge) hle hsmall
    have hhigh : ∀ q, hdrp (p+size+c.size) ≤ q → get (place p a h) q = get h q := by
      intro q hq
      refine hout q (.inr ?_) fun _ => .inr hq
      rw [hdrp, wsize] at hq
      omega
    refine taken_exact hs hframe (fun q hq => hout q (.inl hq) fun _ => .inl ?_) (fun prev' hold => ?_)
      ⟨last, ⟨hstart, hcdvd, hcge, hnext', hrest.congr fun b hb => hhigh _ ?_⟩, ?_⟩ (fun b hb => ?_)
    · rw [hdrp, wsize] at hq
      rw [dsize]
      omega
    · rw [htags prev' hold]
      exact htag'
    · have hb' := hrest.mem hb
      rw [hdrp, hdrp, wsize]
      omega
    · rw [hhigh _ (by rw [hdrp, hdrp, wsize]; omega)]
      exact hep
    · -- the links lie between the header and the footer of the block behind
      have hplace : b.start = p+size ∨ p+size+c.size ≤ b.start := by
        rcases List.mem_cons.mp hb with rfl | hb
        · exact .inl hstart
        · exact .inr (hrest.mem hb).1
      constructor
      · refine hout _ (.inr (by omega)) fun _ => ?_
        rw [hdrp, wsize, dsize]
        omega
      · refine hout _ (.inr (by omega)) fun _ => ?_
        rw [hdrp, wsize, dsize]
        omega

/-! ## The whole of it -/

/-- What the block at `p` becomes. -/
def placed (p size a : ℕ) : List Piece :=
  if a+32 ≤ size then [⟨p, a, true⟩, ⟨p+a, size-a, false⟩] else [⟨p, size, true⟩]

/-- The lists without the block, and with what is left of it at the end of the list of
its own class. -/
def relisted (lists : ℕ → List ℕ) (p size a : ℕ) : ℕ → List ℕ :=
  let removed := Function.update lists (getFreeListHeadId size) ((lists (getFreeListHeadId size)).erase p)
  if a+32 ≤ size then
    Function.update removed (getFreeListHeadId (size-a)) (removed (getFreeListHeadId (size-a))++[p+a])
  else removed

theorem place_exact (he : Exact h (bs++⟨p, size, false⟩ :: cs) lists) (ha : 16 ∣ a) (hge : 32 ≤ a)
    (hle : a ≤ size) :
    Exact (place p a (freeListRemove p h)) (bs++placed p size a++cs) (relisted lists p size a) := by
  have hloose := remove_loose he rfl
  rw [placed, relisted]
  by_cases hcut : a+32 ≤ size
  · obtain ⟨g, hg, hrest⟩ := cut_loose hloose ha hge hcut
    have hexact := insertion_exact hrest rfl
    rw [if_pos hcut, hg]
    rw [if_pos hcut]
    rw [List.append_assoc] at hexact ⊢
    exact hexact
  · have hexact := whole_exact hloose hle (not_le.mp hcut)
    rw [if_neg hcut]
    rw [if_neg hcut]
    rw [List.append_assoc]
    exact hexact

/-- The search ends, finds a free block that is large enough if there is one, and to
take the block out and place the request in it leaves the lists exact. -/
theorem search_complete (he : Exact h bs lists) (a : ℕ) :
    ∃ p, (∀ fuel, (∀ id < freeListNum, (lists id).length < fuel) → findFit fuel a h = some p) ∧
      ((p = 0 ∧ ∀ b ∈ bs, b.alloc = false → b.size < a) ∨
        (p ≠ 0 ∧ ∃ cs size ds, bs = cs++⟨p, size, false⟩ :: ds ∧ a ≤ size ∧
          (16 ∣ a → 32 ≤ a → Exact (place p a (freeListRemove p h)) (cs++placed p size a++ds)
            (relisted lists p size a)))) := by
  refine ⟨found h lists a, fun fuel hfuel => find_found he hfuel, ?_⟩
  rcases found_spec (a := a) he with hnone | ⟨b, hb, hp, hfree, hle⟩
  · exact .inl hnone
  · have hne := (he.node hb).ne
    obtain ⟨cs, ds, hsplit⟩ := List.append_of_mem hb
    rw [hp]
    have hbs : bs = cs++⟨b.start, b.size, false⟩ :: ds := by
      rw [← hfree]
      exact hsplit
    refine .inr ⟨hne, cs, b.size, ds, hbs, hle, fun ha hge => ?_⟩
    rw [hbs] at he
    exact place_exact he ha hge hle

/-! ## The heaps of a run -/

section Runs
open BabyOS.HeapCalls BabyOS.HeapIntegrity

/-- The blocks of a heap whose last one may be free. -/
def piecesOf (bs : List Block) (t c : ℕ) : List Piece :=
  bs.map (fun b => ⟨b.start, b.size, true⟩)++if c = 0 then [] else [⟨t, c, false⟩]

theorem row_tiled {bs : List Block} {t : ℕ} (hr : Row h p t bs) :
    Tiled h p true (bs.map fun b => ⟨b.start, b.size, true⟩) t true := by
  induction bs generalizing p with
  | nil => exact ⟨hr, rfl⟩
  | cons b bs ih =>
    have ⟨hs, hdvd, hge, _, htag, hrow⟩ := hr
    exact ⟨hs, hdvd, hge, htag, ih hrow⟩

theorem settled_exact {bs : List Block} {t c : ℕ} (hs : Settled h bs t c) :
    Exact h (piecesOf bs t c) (listsOf t c) := by
  have hrow := row_tiled hs.row
  have hlow := hs.low_end
  have hbrk := hs.brk
  have hbound := hs.bound
  have hpieces : ∀ b ∈ piecesOf bs t c, b.alloc = false → c ≠ 0 ∧ b = ⟨t, c, false⟩ := by
    intro b hb hfree
    rcases List.mem_append.mp hb with hb | hb
    · obtain ⟨d, -, rfl⟩ := List.mem_map.mp hb
      cases hfree
    · by_cases hc : c = 0
      · rw [if_pos hc] at hb
        cases hb
      · rw [if_neg hc] at hb
        exact ⟨hc, List.mem_singleton.mp hb⟩
  refine ⟨hs.aligned, ?_, hbound, fun id hid => ?_, fun id _ w => ?_⟩
  · by_cases hc : c = 0
    · rw [piecesOf, if_pos hc, List.append_nil, hbrk, hc, Nat.add_zero]
      exact ⟨true, hrow, hs.full hc⟩
    · obtain ⟨hge, htag, -, hep, -, -⟩ := hs.free hc
      rw [piecesOf, if_neg hc, hbrk]
      exact ⟨false, tiled_append.mpr ⟨t, true, hrow, rfl, hs.rest, hge, htag, rfl, rfl⟩, hep⟩
  · have ⟨hhead, htail⟩ := hs.lists id hid
    rw [hhead, htail, listsOf]
    by_cases hc : c ≠ 0 ∧ id = getFreeListHeadId c
    · obtain ⟨-, -, -, -, hprev, hnext⟩ := hs.free hc.1
      rw [if_pos hc, if_pos hc]
      refine ⟨rfl, rfl, List.nodup_singleton t, ?_, ?_, trivial⟩
      · rw [linksOf_prev, getPrevLink, hprev]
        exact pointer_zero
      · rw [linksOf_next, getNextLink, wsize, hnext]
        exact pointer_zero
    · rw [if_neg hc, if_neg hc]
      exact ⟨rfl, rfl, List.nodup_nil, trivial⟩
  · rw [listsOf]
    constructor
    · intro hw
      by_cases hc : c ≠ 0 ∧ id = getFreeListHeadId c
      · rw [if_pos hc] at hw
        refine ⟨⟨t, c, false⟩, ?_, (List.mem_singleton.mp hw).symm, rfl, hc.2.symm⟩
        rw [piecesOf, if_neg hc.1]
        exact List.mem_append_right _ List.mem_cons_self
      · rw [if_neg hc] at hw
        cases hw
    · rintro ⟨b, hb, hstart, hfree, hclass⟩
      obtain ⟨hc, rfl⟩ := hpieces b hb hfree
      rw [if_pos ⟨hc, hclass.symm⟩]
      exact List.mem_singleton.mpr hstart.symm

/-- Calls and stores lead to such heaps only. -/
theorem reachable_exact {fuel : ℕ} {s : State} (hr : Reachable (fuel+2) s) :
    ∃ bs lists, Exact s.heap bs lists := by
  obtain ⟨bs, t, c, hs, -⟩ := reachable_settled hr
  exact ⟨_, _, settled_exact hs⟩

theorem search_complete_booted : ∃ bs lists, Exact booted bs lists ∧
    ∃ p, (∀ fuel, (∀ id < freeListNum, (lists id).length < fuel) → findFit fuel 64 booted = some p) ∧
      ((p = 0 ∧ ∀ b ∈ bs, b.alloc = false → b.size < 64) ∨
        (p ≠ 0 ∧ ∃ cs size ds, bs = cs++⟨p, size, false⟩ :: ds ∧ 64 ≤ size ∧
          (16 ∣ 64 → 32 ≤ 64 → Exact (place p 64 (freeListRemove p booted)) (cs++placed p size 64++ds)
            (relisted lists p size 64)))) := by
  obtain ⟨bs, lists, he⟩ := reachable_exact (booted_reachable 2)
  exact ⟨bs, lists, he, search_complete he 64⟩

end Runs

end BabyOS.HeapFitting
