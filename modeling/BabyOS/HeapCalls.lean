import BabyOS.HeapBlocks

/-!
# What the calls do to the heap

One rule for each function of `malloc.cc`, from one description of the heap to the
next.
-/

set_option autoImplicit false

namespace BabyOS.HeapCalls
open BabyOS.ByteWords BabyOS.HeapMachine BabyOS.HeapBlocks

variable {h h' : Heap} {bs : List Block} {t c a : ℕ}

theorem Laid.rest_lt (hl : Laid h bs t c) : c < 2^64 := by
  have hlow := hl.low_end
  have hbound := hl.bound
  rw [hl.brk] at hbound
  omega

/-- The bytes at `t` become a block. -/
theorem Laid.append (hl : Laid h bs t c) (ha : 16 ∣ a) (hge : 32 ≤ a) (hle : a ≤ c)
    (ht : get h (hdrp t) = pack a true true) : Laid h (bs++[⟨t, a⟩]) (t+a) (c-a) := by
  have hlt := Laid.rest_lt hl
  have hbrk := hl.brk
  exact ⟨hl.aligned, hl.low, hl.header, hl.footer, hl.row.append ha hge (by omega) ht, by omega, hl.bound,
    Nat.dvd_sub hl.rest ha⟩

/-! ## The free lists -/

theorem find_in (hs : Settled h bs t c) (fuel : ℕ) {id : ℕ} (hid : id < freeListNum) :
    findIn a h (fuel+2) (h.freeListHeads id) =
      some (if c ≠ 0 ∧ id = getFreeListHeadId c ∧ a ≤ c then t else 0) := by
  have hlow := hs.low_end
  rw [(hs.lists id hid).1]
  by_cases hin : c ≠ 0 ∧ id = getFreeListHeadId c
  · have ⟨_, htag, _, _, _, hnext⟩ := hs.free hin.1
    have hsize : getSize h (hdrp t) = c := tag_size hs.rest (Laid.rest_lt hs.toLaid) htag
    have hlink : getNextLink h t = 0 := hnext
    rw [if_pos hin, findIn, if_neg (by omega), hsize]
    by_cases ha : a ≤ c
    · rw [if_pos ha, if_pos ⟨hin.1, hin.2, ha⟩]
    · rw [if_neg ha, if_neg fun hn => ha hn.2.2, hlink]
      rfl
  · rw [if_neg hin, if_neg fun hn => hin ⟨hn.1, hn.2.1⟩]
    rfl

theorem find_from (hs : Settled h bs t c) (fuel : ℕ) {n id : ℕ} (hid : id+n = freeListNum) :
    findFrom (fuel+2) a h n id =
      some (if c ≠ 0 ∧ id ≤ getFreeListHeadId c ∧ a ≤ c then t else 0) := by
  have hlow := hs.low_end
  induction n generalizing id with
  | zero =>
    have hlt := headId_lt c
    rw [findFrom, if_neg (by omega)]
  | succ n ih =>
    rw [findFrom, find_in hs fuel (by omega), ih (by omega)]
    by_cases hhere : c ≠ 0 ∧ id = getFreeListHeadId c ∧ a ≤ c
    · have hlater : c ≠ 0 ∧ id ≤ getFreeListHeadId c ∧ a ≤ c := ⟨hhere.1, hhere.2.1.le, hhere.2.2⟩
      rw [if_pos hhere, if_pos hlater]
      obtain ⟨k, hk⟩ := Nat.exists_eq_succ_of_ne_zero (by omega : t ≠ 0)
      rw [hk]
      rfl
    · rw [if_neg hhere]
      have hiff : (c ≠ 0 ∧ id+1 ≤ getFreeListHeadId c ∧ a ≤ c) ↔
          (c ≠ 0 ∧ id ≤ getFreeListHeadId c ∧ a ≤ c) :=
        ⟨fun ⟨h1, h2, h3⟩ => ⟨h1, by omega, h3⟩, fun ⟨h1, h2, h3⟩ => ⟨h1, by
          have hne : id ≠ getFreeListHeadId c := fun he => hhere ⟨h1, he, h3⟩
          omega, h3⟩⟩
      simp only [hiff]

/-- The free block is found if it is large enough. -/
theorem find_fit (hs : Settled h bs t c) (fuel : ℕ) :
    findFit (fuel+2) a h = some (if c ≠ 0 ∧ a ≤ c then t else 0) := by
  have hlt := headId_lt a
  rw [findFit, find_from hs fuel (by omega)]
  have hiff : (c ≠ 0 ∧ getFreeListHeadId a ≤ getFreeListHeadId c ∧ a ≤ c) ↔ (c ≠ 0 ∧ a ≤ c) :=
    ⟨fun ⟨h1, _, h3⟩ => ⟨h1, h3⟩, fun ⟨h1, h3⟩ => ⟨h1, headId_mono h3, h3⟩⟩
  simp only [hiff]

/-- The only block of its list. -/
theorem remove_eq {id : ℕ} (hid : getFreeListHeadId (getSize h (hdrp t)) = id)
    (hhead : h.freeListHeads id = t) (hnext : get h (t+8) = 0) :
    freeListRemove t h = put (t+8) 0 (put t 0 (setTail id 0 (setHead id 0 h))) := by
  have hlink : getNextLink h t = 0 := hnext
  have hnew : (setHead id 0 h).freeListHeads id = 0 := Function.update_self _ _ _
  rw [freeListRemove]
  simp only [hid, hhead, if_true, hlink, hnew, ne_eq, not_true_eq_false, if_false]
  rfl

theorem removed_lists (hl : Lists h t c) (h' : Heap)
    (hheads : h'.freeListHeads = Function.update h.freeListHeads (getFreeListHeadId c) 0)
    (htails : h'.freeListTails = Function.update h.freeListTails (getFreeListHeadId c) 0) : Lists h' t 0 := by
  intro id hid
  have ⟨hh, ht⟩ := hl id hid
  rw [hheads, htails, if_neg fun hn => hn.1 rfl]
  by_cases he : id = getFreeListHeadId c
  · rw [he, Function.update_self, Function.update_self]
    exact ⟨rfl, rfl⟩
  · rw [Function.update_of_ne he, Function.update_of_ne he, hh, ht, if_neg fun hn => he hn.2]
    exact ⟨rfl, rfl⟩

/-- The links of a block that leaves its list are cleared. -/
theorem put_zero (h : Heap) (p q : ℕ) (hq : p+8 ≤ q) : (put q 0 (put p 0 h)).mem p = 0 := by
  rw [put_mem (.inl (by omega))]
  exact (if_pos ⟨le_rfl, by rw [wsize]; omega⟩).trans (by rw [Nat.zero_div]; rfl)

theorem remove_ready (hs : Settled h bs t c) (hc : c ≠ 0) :
    Ready (freeListRemove t h) bs t c ∧ (∀ x, x+8 < t → (freeListRemove t h).mem x = h.mem x) ∧
      (freeListRemove t h).mem t = 0 := by
  have ⟨hge, htag, hfoot, hep, _, hnext⟩ := hs.free hc
  have hlow := hs.low_end
  have hsize : getSize h (hdrp t) = c := tag_size hs.rest (Laid.rest_lt hs.toLaid) htag
  have hhead := (hs.lists _ (headId_lt c)).1
  rw [if_pos ⟨hc, rfl⟩] at hhead
  have heq := remove_eq (congrArg getFreeListHeadId hsize) hhead hnext
  have hmem : ∀ x, x+8 < t → (freeListRemove t h).mem x = h.mem x := by
    intro x hx
    rw [heq, put_mem (by omega), put_mem (by omega)]
    rfl
  have hget : ∀ q, q+8 ≤ t ∨ t+16 ≤ q → get (freeListRemove t h) q = get h q := by
    intro q hq
    rw [heq, get_put_other (by omega), get_put_other (by omega)]
    rfl
  have hlist : (freeListRemove t h).listp = h.listp := by
    rw [heq]
    rfl
  have hbrk : (freeListRemove t h).brk = h.brk := by
    rw [heq]
    rfl
  have hfirst : (freeListRemove t h).mem t = 0 := by
    rw [heq]
    exact put_zero _ t (t+8) le_rfl
  refine ⟨⟨?_, ?_, hge, ?_, ?_, ?_⟩, hmem, hfirst⟩
  · exact hs.toLaid.congr hlist (by rw [hbrk, hs.brk]) (by rw [hbrk]; exact hs.bound) hs.rest
      fun x hx _ => hmem x hx
  · refine removed_lists hs.lists _ ?_ ?_
    · rw [heq]
      rfl
    · rw [heq]
      rfl
  · rw [hget _ (by rw [hdrp, wsize]; omega)]
    exact htag
  · rw [hget _ (by rw [dsize]; omega)]
    exact hfoot
  · rw [hget _ (by rw [hdrp, wsize]; omega)]
    exact hep

theorem insert_settled (hr : Ready h bs t c) :
    Settled (freeListInsert t h) bs t c ∧ (∀ x, x+8 < t → (freeListInsert t h).mem x = h.mem x) := by
  have hlow := hr.low_end
  have hmin := hr.size
  have hsize : getSize h (hdrp t) = c := tag_size hr.rest (Laid.rest_lt hr.toLaid) hr.tag
  let h₁ := put (t+8) 0 (put t 0 h)
  have htail : h₁.freeListTails (getFreeListHeadId c) = 0 := by
    have hz := (hr.lists _ (headId_lt c)).2
    rw [if_neg fun hn => hn.1 rfl] at hz
    exact hz
  have heq : freeListInsert t h = setHead (getFreeListHeadId c) t (setTail (getFreeListHeadId c) t h₁) := by
    rw [freeListInsert, hsize]
    change (if h₁.freeListTails (getFreeListHeadId c) = 0 then _ else _) = _
    rw [if_pos htail]
    rfl
  have hget : ∀ q, get (freeListInsert t h) q = get h₁ q := by
    intro q
    rw [heq]
    rfl
  have hfar : ∀ q, q+8 ≤ t ∨ t+16 ≤ q → get (freeListInsert t h) q = get h q := by
    intro q hq
    rw [hget, get_put_other (by omega), get_put_other (by omega)]
  have hmem : ∀ x, x+8 < t → (freeListInsert t h).mem x = h.mem x := by
    intro x hx
    rw [heq]
    change h₁.mem x = h.mem x
    rw [put_mem (by omega), put_mem (by omega)]
  have hlist : (freeListInsert t h).listp = h.listp := by
    rw [heq]
    rfl
  have hbrk : (freeListInsert t h).brk = h.brk := by
    rw [heq]
    rfl
  refine ⟨⟨?_, ?_, fun hz => absurd hz (by omega), fun _ => ⟨hmin, ?_, ?_, ?_, ?_, ?_⟩⟩, hmem⟩
  · exact hr.toLaid.congr hlist (by rw [hbrk, hr.brk]) (by rw [hbrk]; exact hr.bound) hr.rest
      fun x hx _ => hmem x hx
  · intro id hid
    have hz := hr.lists id hid
    rw [if_neg fun hn => hn.1 rfl] at hz
    have hupdate : ∀ f : ℕ → ℕ, f id = 0 → Function.update f (getFreeListHeadId c) t id =
        if c ≠ 0 ∧ id = getFreeListHeadId c then t else 0 := by
      intro f hf
      by_cases he : id = getFreeListHeadId c
      · rw [if_pos ⟨by omega, he⟩, he, Function.update_self]
      · rw [if_neg fun hn => he hn.2, Function.update_of_ne he, hf]
    rw [heq]
    exact ⟨hupdate _ hz.1, hupdate _ hz.2⟩
  · rw [hfar _ (by rw [hdrp, wsize]; omega)]
    exact hr.tag
  · rw [hfar _ (by rw [dsize]; omega)]
    exact hr.foot
  · rw [hfar _ (by rw [hdrp, wsize]; omega)]
    exact hr.epilogue
  · rw [hget, get_put_other (by omega), get_put]
    rfl
  · rw [hget, get_put]
    rfl

/-! ## Cutting a block off -/

/-- The block is cut off, and what is left goes into its list. -/
theorem place_cut (hr : Ready h bs t c) (ha : 16 ∣ a) (hge : 32 ≤ a) (hle : a+32 ≤ c) :
    Settled (place t a h) (bs++[⟨t, a⟩]) (t+a) (c-a) ∧
      (∀ x, x+8 < t ∨ x = t → (place t a h).mem x = h.mem x) := by
  have hlow := hr.low_end
  have hlt := Laid.rest_lt hr.toLaid
  have hdvd : 16 ∣ c-a := Nat.dvd_sub hr.rest ha
  have hsize : getSize h (hdrp t) = c := tag_size hr.rest hlt hr.tag
  have hprev : getPrevAlloc h (hdrp t) = true := tag_prev hr.rest hr.tag
  have hminus : minus c a = c-a := minus_eq (by omega) hlt
  -- the block
  let h₁ := put (hdrp t) (pack a true true) h
  have htag₁ : get h₁ (hdrp t) = pack a true true := get_put_tag ha (by omega)
  have hsize₁ : getSize h₁ (hdrp t) = a := tag_size ha (by omega) htag₁
  have hprev₁ : getPrevAlloc h₁ (hdrp t) = true := tag_prev ha htag₁
  let h₂ := put (t+a-dsize) (pack a true true) h₁
  have htag₂ : get h₂ (hdrp t) = pack a true true := by
    rw [get_put_other (by rw [hdrp, wsize, dsize]; omega)]
    exact htag₁
  have hsize₂ : getSize h₂ (hdrp t) = a := tag_size ha (by omega) htag₂
  -- what is left
  let h₃ := put (hdrp (t+a)) (pack (c-a) true false) h₂
  have htag₃ : get h₃ (hdrp (t+a)) = pack (c-a) true false := get_put_tag hdvd (by omega)
  have hsize₃ : getSize h₃ (hdrp (t+a)) = c-a := tag_size hdvd (by omega) htag₃
  have halloc₃ : getAlloc h₃ (hdrp (t+a)) = false := tag_alloc hdvd htag₃
  let h₄ := put (t+a+(c-a)-dsize) (pack (c-a) true false) h₃
  have htag₄ : get h₄ (hdrp (t+a)) = pack (c-a) true false := by
    rw [get_put_other (by rw [hdrp, wsize, dsize]; omega)]
    exact htag₃
  have heq : place t a h = freeListInsert (t+a) h₄ := by
    rw [place]
    simp only [hsize, hprev, hminus, ftrp, nextBlkp]
    rw [if_pos (by rw [dsize]; omega)]
    change (freeListInsert (t+getSize (put (t+getSize h₁ (hdrp t)-dsize)
      (pack a (getPrevAlloc h₁ (hdrp t)) true) h₁) (hdrp t)) _) = _
    rw [hsize₁, hprev₁]
    change (freeListInsert (t+getSize h₂ (hdrp t)) (if (!getAlloc (put (hdrp (t+getSize h₂ (hdrp t)))
      (pack (c-a) true false) h₂) (hdrp (t+getSize h₂ (hdrp t)))) = true then _ else _)) = _
    rw [hsize₂]
    change (freeListInsert (t+a) (if (!getAlloc h₃ (hdrp (t+a))) = true then
      put (t+a+getSize h₃ (hdrp (t+a))-dsize) (pack (c-a) true false) h₃ else h₃)) = _
    rw [halloc₃, hsize₃]
    rfl
  have hmem : ∀ x, x+8 < t ∨ x = t → h₄.mem x = h.mem x := by
    intro x hx
    rw [put_mem (by rw [dsize]; omega), put_mem (by rw [hdrp, wsize]; omega), put_mem (by rw [dsize]; omega),
      put_mem (by rw [hdrp, wsize]; omega)]
  have hlaid : Laid h₄ bs t c := by
    have hlist : h₄.listp = h.listp := rfl
    exact hr.toLaid.congr hlist hr.brk hr.bound hr.rest fun x hx _ => hmem x (.inl hx)
  have htag : get h₄ (hdrp t) = pack a true true := by
    rw [get_put_other (by rw [hdrp, wsize, dsize]; omega), get_put_other (by rw [hdrp, hdrp, wsize]; omega)]
    exact htag₂
  have hready : Ready h₄ (bs++[⟨t, a⟩]) (t+a) (c-a) := by
    refine ⟨Laid.append hlaid ha hge (by omega) htag, ?_, by omega, htag₄, get_put_tag hdvd (by omega), ?_⟩
    · intro id hid
      have hz := hr.lists id hid
      rw [if_neg fun hn => hn.1 rfl] at hz ⊢
      exact hz
    · have hsum : t+a+(c-a) = t+c := by omega
      rw [hsum, get_put_other (by rw [hdrp, wsize, dsize]; omega),
        get_put_other (by rw [hdrp, hdrp, wsize]; omega), get_put_other (by rw [hdrp, wsize, dsize]; omega),
        get_put_other (by rw [hdrp, hdrp, wsize]; omega)]
      exact hr.epilogue
  obtain ⟨hset, hm⟩ := insert_settled hready
  rw [heq]
  exact ⟨hset, fun x hx => (hm x (by omega)).trans (hmem x hx)⟩

/-- The whole block is taken. -/
theorem place_whole (hr : Ready h bs t c) (hge : a ≤ c) (hlt : c < a+32) :
    Settled (place t a h) (bs++[⟨t, c⟩]) (t+c) 0 ∧
      (∀ x, x+8 < t ∨ x = t → (place t a h).mem x = h.mem x) := by
  have hlow := hr.low_end
  have hc := Laid.rest_lt hr.toLaid
  have hmin := hr.size
  have hsize : getSize h (hdrp t) = c := tag_size hr.rest hc hr.tag
  have hprev : getPrevAlloc h (hdrp t) = true := tag_prev hr.rest hr.tag
  have hminus : minus c a = c-a := minus_eq hge hc
  let h₁ := put (hdrp t) (pack c true true) h
  have htag₁ : get h₁ (hdrp t) = pack c true true := get_put_tag hr.rest hc
  have hsize₁ : getSize h₁ (hdrp t) = c := tag_size hr.rest hc htag₁
  have hprev₁ : getPrevAlloc h₁ (hdrp t) = true := tag_prev hr.rest htag₁
  let h₂ := put (t+c-dsize) (pack c true true) h₁
  have htag₂ : get h₂ (hdrp t) = pack c true true := by
    rw [get_put_other (by rw [hdrp, wsize, dsize]; omega)]
    exact htag₁
  have hsize₂ : getSize h₂ (hdrp t) = c := tag_size hr.rest hc htag₂
  have hep₂ : get h₂ (hdrp (t+c)) = pack 0 false true := by
    rw [get_put_other (by rw [hdrp, wsize, dsize]; omega), get_put_other (by rw [hdrp, hdrp, wsize]; omega)]
    exact hr.epilogue
  have hzero₂ : getSize h₂ (hdrp (t+c)) = 0 := tag_size (dvd_zero 16) (by decide) hep₂
  have halloc₂ : getAlloc h₂ (hdrp (t+c)) = true := tag_alloc (dvd_zero 16) hep₂
  let h₃ := put (hdrp (t+c)) (pack 0 true true) h₂
  have hep₃ : get h₃ (hdrp (t+c)) = pack 0 true true := get_put_tag (dvd_zero 16) (by decide)
  have halloc₃ : getAlloc h₃ (hdrp (t+c)) = true := tag_alloc (dvd_zero 16) hep₃
  have heq : place t a h = h₃ := by
    rw [place]
    simp only [hsize, hprev, hminus, ftrp, nextBlkp]
    rw [if_neg (by rw [dsize]; omega)]
    change (if (!getAlloc (put (hdrp (t+getSize (put (t+getSize h₁ (hdrp t)-dsize)
      (pack c (getPrevAlloc h₁ (hdrp t)) true) h₁) (hdrp t))) _ _) _) = true then _ else _) = _
    rw [hsize₁, hprev₁]
    change (if (!getAlloc (put (hdrp (t+getSize h₂ (hdrp t))) (pack (getSize h₂ (hdrp (t+getSize h₂ (hdrp t))))
      true (getAlloc h₂ (hdrp (t+getSize h₂ (hdrp t))))) h₂) (hdrp (t+getSize h₂ (hdrp t)))) = true then _
      else put (hdrp (t+getSize h₂ (hdrp t))) (pack (getSize h₂ (hdrp (t+getSize h₂ (hdrp t))))
      true (getAlloc h₂ (hdrp (t+getSize h₂ (hdrp t))))) h₂) = _
    rw [hsize₂, hzero₂, halloc₂]
    change (if (!getAlloc h₃ (hdrp (t+c))) = true then _ else h₃) = _
    rw [halloc₃]
    rfl
  have hmem : ∀ x, x+8 < t ∨ x = t → (place t a h).mem x = h.mem x := by
    intro x hx
    rw [heq, put_mem (by rw [hdrp, wsize]; omega), put_mem (by rw [dsize]; omega),
      put_mem (by rw [hdrp, wsize]; omega)]
  have hlaid : Laid (place t a h) bs t c := by
    refine hr.toLaid.congr ?_ ?_ ?_ hr.rest fun x hx _ => hmem x (.inl hx)
    · rw [heq]
      rfl
    · rw [heq]
      exact hr.brk
    · rw [heq]
      exact hr.bound
  have htag : get (place t a h) (hdrp t) = pack c true true := by
    rw [heq, get_put_other (by rw [hdrp, hdrp, wsize]; omega)]
    exact htag₂
  have happend := Laid.append hlaid hr.rest hmin (le_refl c) htag
  rw [Nat.sub_self] at happend
  refine ⟨⟨happend, ?_, fun _ => ?_, fun hn => absurd rfl hn⟩, hmem⟩
  · intro id hid
    have hz := hr.lists id hid
    rw [if_neg fun hn => hn.1 rfl] at hz ⊢
    rw [heq]
    exact hz
  · rw [heq]
    exact hep₃

/-- The block at `t` is allocated. -/
theorem place_settled (hr : Ready h bs t c) (ha : 16 ∣ a) (hge : 32 ≤ a) (hle : a ≤ c) :
    ∃ s t' c', a ≤ s ∧ Settled (place t a h) (bs++[⟨t, s⟩]) t' c' ∧
      ∀ x, x+8 < t ∨ x = t → (place t a h).mem x = h.mem x := by
  by_cases hcut : a+32 ≤ c
  · have ⟨hs, hm⟩ := place_cut hr ha hge hcut
    exact ⟨a, t+a, c-a, le_refl a, hs, hm⟩
  · have ⟨hs, hm⟩ := place_whole hr hle (not_le.mp hcut)
    exact ⟨c, t+c, 0, hle, hs, hm⟩

/-! ## More memory -/

/-- The heap with `e` more bytes behind the break. -/
def grown (h : Heap) (contents : Bytes) (e : ℕ) : Heap :=
  { h with
    mem := fun x => if h.brk ≤ x ∧ x < h.brk+e then contents x else h.mem x
    brk := h.brk+e }

theorem grown_get (contents : Bytes) (e : ℕ) {q : ℕ} (hq : q+8 ≤ h.brk) :
    get (grown h contents e) q = get h q :=
  get_congr fun x _ hx => if_neg fun hn => absurd hn.1 (by omega)

theorem sbrk_eq (answer : Answer) (e : ℕ) : sbrk answer e h = none ∨
    ∃ contents, answer = some contents ∧ h.brk+e ≤ 2^64 ∧ sbrk answer e h = some (h.brk, grown h contents e) := by
  cases answer with
  | none => exact .inl rfl
  | some contents =>
    by_cases hle : h.brk+e ≤ 2^64
    · exact .inr ⟨contents, rfl, hle, if_pos hle⟩
    · exact .inl (if_neg hle)

/-- The new block, with the flag of the old epilogue, and the new epilogue. -/
def fresh (p e : ℕ) (prev : Bool) (h : Heap) : Heap :=
  put (hdrp (p+e)) (pack 0 false true) (put (p+e-dsize) (pack e prev false) (put (hdrp p) (pack e prev false) h))

section Fresh

variable {p e : ℕ} {prev : Bool}

theorem fresh_get {q : ℕ} (hp : 32 ≤ p) (he : 32 ≤ e) (hq : q+16 ≤ p) : get (fresh p e prev h) q = get h q := by
  rw [fresh, get_put_other (by rw [hdrp, wsize]; omega), get_put_other (by rw [dsize]; omega),
    get_put_other (by rw [hdrp, wsize]; omega)]

theorem fresh_mem {x : ℕ} (hp : 32 ≤ p) (he : 32 ≤ e) (hx : x+8 < p ∨ x = p) : (fresh p e prev h).mem x = h.mem x := by
  rw [fresh, put_mem (by rw [hdrp, wsize]; omega), put_mem (by rw [dsize]; omega),
    put_mem (by rw [hdrp, wsize]; omega)]

theorem fresh_tag (hp : 32 ≤ p) (hdvd : 16 ∣ e) (he : 32 ≤ e) (hlt : e < 2^64) :
    get (fresh p e prev h) (hdrp p) = pack e prev false := by
  rw [fresh, get_put_other (by rw [hdrp, hdrp, wsize]; omega), get_put_other (by rw [hdrp, wsize, dsize]; omega)]
  exact get_put_tag hdvd hlt

theorem fresh_foot (hp : 32 ≤ p) (hdvd : 16 ∣ e) (he : 32 ≤ e) (hlt : e < 2^64) :
    get (fresh p e prev h) (p+e-dsize) = pack e prev false := by
  rw [fresh, get_put_other (by rw [hdrp, wsize, dsize]; omega)]
  exact get_put_tag hdvd hlt

theorem fresh_epilogue : get (fresh p e prev h) (hdrp (p+e)) = pack 0 false true :=
  get_put_tag (dvd_zero 16) (by decide)

/-- What `extend_heap` writes before it merges. -/
theorem extend_eq {words : ℕ} (contents : Bytes) (hp : 32 ≤ h.brk) (hwords : words%2 = 0) (he : words*8 = e)
    (hdvd : 16 ∣ e) (hge : 32 ≤ e) (hlt : e < 2^64) (hroom : h.brk+e ≤ 2^64)
    (hprev : getPrevAlloc h (hdrp h.brk) = prev) :
    extendHeap (some contents) words h = some (coalesce h.brk (fresh h.brk e prev (grown h contents e))) := by
  have hsize : (if words%2 ≠ 0 then (words+1)*wsize else words*wsize)%2^64 = e := by
    rw [if_neg (by omega), wsize, he, Nat.mod_eq_of_lt hlt]
  have hcall : sbrk (some contents) e h = some (h.brk, grown h contents e) := if_pos hroom
  have hflag : getPrevAlloc (grown h contents e) (hdrp h.brk) = prev := by
    rw [← hprev, getPrevAlloc, getPrevAlloc, grown_get contents e (by rw [hdrp, wsize]; omega)]
  let h₁ := put (hdrp h.brk) (pack e prev false) (grown h contents e)
  have htag₁ : get h₁ (hdrp h.brk) = pack e prev false := get_put_tag hdvd hlt
  have hsize₁ : getSize h₁ (hdrp h.brk) = e := tag_size hdvd hlt htag₁
  have hprev₁ : getPrevAlloc h₁ (hdrp h.brk) = prev := tag_prev hdvd htag₁
  let h₂ := put (h.brk+e-dsize) (pack e prev false) h₁
  have htag₂ : get h₂ (hdrp h.brk) = pack e prev false := by
    rw [get_put_other (by rw [hdrp, wsize, dsize]; omega)]
    exact htag₁
  have hsize₂ : getSize h₂ (hdrp h.brk) = e := tag_size hdvd hlt htag₂
  rw [extendHeap]
  simp only [hsize, hcall, Option.map_some, hflag]
  change some (coalesce h.brk (put (hdrp (nextBlkp (put (h.brk+getSize h₁ (hdrp h.brk)-dsize)
    (pack e (getPrevAlloc h₁ (hdrp h.brk)) false) h₁) h.brk)) (pack 0 false true)
    (put (h.brk+getSize h₁ (hdrp h.brk)-dsize) (pack e (getPrevAlloc h₁ (hdrp h.brk)) false) h₁))) = _
  rw [hsize₁, hprev₁]
  change some (coalesce h.brk (put (hdrp (h.brk+getSize h₂ (hdrp h.brk))) (pack 0 false true) h₂)) = _
  rw [hsize₂]
  rfl

end Fresh

/-- No free block before the break. -/
theorem extend_full {words e : ℕ} {contents : Bytes} (hs : Settled h bs t 0) (hwords : words%2 = 0)
    (he : words*8 = e) (hdvd : 16 ∣ e) (hge : 32 ≤ e) (hlt : e < 2^64) (hroom : h.brk+e ≤ 2^64) :
    ∃ h', extendHeap (some contents) words h = some (t, h') ∧ Ready h' bs t e ∧
      (∀ x, x+8 < t → h'.mem x = h.mem x) ∧ h'.mem t = contents t := by
  have hbrk : h.brk = t := hs.brk
  have hlow := hs.low_end
  have hep := hs.full rfl
  rw [← hbrk] at hep hlow
  have hprev : getPrevAlloc h (hdrp h.brk) = true := tag_prev (dvd_zero 16) hep
  have heq := extend_eq contents hlow hwords he hdvd hge hlt hroom hprev
  let h₁ := fresh h.brk e true (grown h contents e)
  have htag : get h₁ (hdrp h.brk) = pack e true false := fresh_tag hlow hdvd hge hlt
  have hsize : getSize h₁ (hdrp h.brk) = e := tag_size hdvd hlt htag
  have hflag : getPrevAlloc h₁ (hdrp h.brk) = true := tag_prev hdvd htag
  have hnext : getAlloc h₁ (hdrp (h.brk+e)) = true := tag_alloc (dvd_zero 16) fresh_epilogue
  have hmerge : coalesce h.brk h₁ = (h.brk, h₁) := by
    rw [coalesce]
    simp only [nextBlkp, hflag, hsize, hnext]
  have hmem : ∀ x, x+8 < h.brk → h₁.mem x = h.mem x := by
    intro x hx
    rw [fresh_mem hlow hge (.inl hx)]
    exact if_neg fun hn => absurd hn.1 (by omega)
  have hfirst : h₁.mem h.brk = contents h.brk := by
    rw [fresh_mem hlow hge (.inr rfl)]
    exact if_pos ⟨le_rfl, by omega⟩
  rw [hmerge, hbrk] at heq
  refine ⟨h₁, ?_, ⟨?_, ?_, hge, ?_, ?_, ?_⟩, ?_, ?_⟩
  · rw [heq]
  · have hend : h₁.brk = t+e := by
      change h.brk+e = t+e
      rw [hbrk]
    have hlist : h₁.listp = h.listp := rfl
    exact hs.toLaid.congr hlist hend hroom hdvd fun x hx _ => hmem x (by rw [hbrk]; exact hx)
  · intro id hid
    have hz := hs.lists id hid
    rw [if_neg fun hn => hn.1 rfl] at hz ⊢
    exact hz
  · rw [← hbrk]
    exact htag
  · rw [← hbrk]
    exact fresh_foot hlow hdvd hge hlt
  · rw [← hbrk]
    exact fresh_epilogue
  · rw [← hbrk]
    exact hmem
  · rw [← hbrk]
    exact hfirst

/-- The free block before the break grows. -/
theorem extend_free {words e : ℕ} {contents : Bytes} (hs : Settled h bs t c) (hc : c ≠ 0)
    (hwords : words%2 = 0) (he : words*8 = e) (hdvd : 16 ∣ e) (hge : 32 ≤ e) (hlt : e < 2^64)
    (hroom : h.brk+e ≤ 2^64) :
    ∃ h', extendHeap (some contents) words h = some (t, h') ∧ Ready h' bs t (c+e) ∧
      (∀ x, x+8 < t → h'.mem x = h.mem x) ∧ h'.mem t = 0 := by
  have hbrk : h.brk = t+c := hs.brk
  have hlow := hs.low_end
  have hclt := Laid.rest_lt hs.toLaid
  have hrest := hs.rest
  have ⟨hmin, htag, hfoot, hep, _, hlink⟩ := hs.free hc
  have hlow' : 32 ≤ h.brk := by omega
  have hdvd' : 16 ∣ c+e := dvd_add hrest hdvd
  have hlt' : c+e < 2^64 := by omega
  rw [← hbrk] at hfoot hep
  have hprev : getPrevAlloc h (hdrp h.brk) = false := tag_prev (dvd_zero 16) hep
  have heq := extend_eq contents hlow' hwords he hdvd hge hlt hroom hprev
  let h₁ := fresh h.brk e false (grown h contents e)
  have hold : ∀ q, q+16 ≤ h.brk → get h₁ q = get h q := by
    intro q hq
    rw [fresh_get hlow' hge hq]
    exact grown_get contents e (by omega)
  have htag₁ : get h₁ (hdrp h.brk) = pack e false false := fresh_tag hlow' hdvd hge hlt
  have hsize₁ : getSize h₁ (hdrp h.brk) = e := tag_size hdvd hlt htag₁
  have hflag₁ : getPrevAlloc h₁ (hdrp h.brk) = false := tag_prev hdvd htag₁
  have hnext₁ : getAlloc h₁ (hdrp (h.brk+e)) = true := tag_alloc (dvd_zero 16) fresh_epilogue
  have hprev₁ : prevBlkp h₁ h.brk = t := by
    have hfoot₁ : get h₁ (h.brk-dsize) = pack c true false := by
      rw [hold _ (by rw [dsize]; omega)]
      exact hfoot
    rw [prevBlkp, tag_size hrest hclt hfoot₁]
    omega
  -- the free block leaves its list
  have hfree₁ : get h₁ (hdrp t) = pack c true false := by
    rw [hold _ (by rw [hdrp, wsize]; omega)]
    exact htag
  have hlink₁ : get h₁ (t+8) = 0 := by
    rw [hold _ (by omega)]
    exact hlink
  have hhead : h₁.freeListHeads (getFreeListHeadId c) = t := by
    have hh := (hs.lists _ (headId_lt c)).1
    rw [if_pos ⟨hc, rfl⟩] at hh
    exact hh
  have hremove := remove_eq (congrArg getFreeListHeadId (tag_size hrest hclt hfree₁)) hhead hlink₁
  let h₂ := freeListRemove t h₁
  have hget₂ : ∀ q, q+8 ≤ t ∨ t+16 ≤ q → get h₂ q = get h₁ q := by
    intro q hq
    change get (freeListRemove t h₁) q = get h₁ q
    rw [hremove, get_put_other (by omega), get_put_other (by omega)]
    rfl
  have htag₂ : get h₂ (hdrp h.brk) = pack e false false := by
    rw [hget₂ _ (by rw [hdrp, wsize]; omega)]
    exact htag₁
  have hfoot₂ : get h₂ (h.brk-dsize) = pack c true false := by
    rw [hget₂ _ (by rw [dsize]; omega), hold _ (by rw [dsize]; omega)]
    exact hfoot
  have hprev₂ : prevBlkp h₂ h.brk = t := by
    rw [prevBlkp, tag_size hrest hclt hfoot₂]
    omega
  have hfree₂ : get h₂ (hdrp t) = pack c true false := by
    rw [hget₂ _ (by rw [hdrp, wsize]; omega)]
    exact hfree₁
  -- its header and the footer of the new block
  let h₃ := put (h.brk+e-dsize) (pack (e+c) true false) h₂
  have hfree₃ : get h₃ (hdrp t) = pack c true false := by
    rw [get_put_other (by rw [hdrp, wsize, dsize]; omega)]
    exact hfree₂
  have hfoot₃ : get h₃ (h.brk-dsize) = pack c true false := by
    rw [get_put_other (by rw [dsize]; omega)]
    exact hfoot₂
  have hprev₃ : prevBlkp h₃ h.brk = t := by
    rw [prevBlkp, tag_size hrest hclt hfoot₃]
    omega
  let h₄ := put (hdrp t) (pack (e+c) true false) h₃
  have hprev₄ : prevBlkp h₄ h.brk = t := by
    have hfoot₄ : get h₄ (h.brk-dsize) = pack c true false := by
      rw [get_put_other (by rw [hdrp, wsize, dsize]; omega)]
      exact hfoot₃
    rw [prevBlkp, tag_size hrest hclt hfoot₄]
    omega
  have hmerge : coalesce h.brk h₁ = (t, h₄) := by
    rw [coalesce]
    simp only [nextBlkp, hflag₁, hsize₁, hnext₁, hprev₁, Bool.false_eq_true, if_false, ftrp]
    change (prevBlkp (put (hdrp (prevBlkp (put (h.brk+getSize h₂ (hdrp h.brk)-dsize)
      (pack (e+getSize h₂ (hdrp (prevBlkp h₂ h.brk))) (getPrevAlloc h₂ (hdrp t)) false) h₂) h.brk)) _ _) h.brk,
      _) = _
    rw [hprev₂, tag_size hdvd hlt htag₂, tag_size hrest hclt hfree₂, tag_prev hrest hfree₂]
    change (prevBlkp (put (hdrp (prevBlkp h₃ h.brk)) (pack (e+c) (getPrevAlloc h₃ (hdrp t)) false) h₃) h.brk,
      put (hdrp (prevBlkp h₃ h.brk)) (pack (e+c) (getPrevAlloc h₃ (hdrp t)) false) h₃) = _
    rw [hprev₃, tag_prev hrest hfree₃]
    change (prevBlkp h₄ h.brk, h₄) = _
    rw [hprev₄]
  have hmem : ∀ x, x+8 < t → h₄.mem x = h.mem x := by
    intro x hx
    have hlast : h₂.mem x = h₁.mem x := by
      change (freeListRemove t h₁).mem x = h₁.mem x
      rw [hremove, put_mem (by omega), put_mem (by omega)]
      rfl
    rw [put_mem (by rw [hdrp, wsize]; omega), put_mem (by rw [dsize]; omega), hlast,
      fresh_mem hlow' hge (by omega)]
    exact if_neg fun hn => absurd hn.1 (by omega)
  have hfirst : h₄.mem t = 0 := by
    rw [put_mem (by rw [hdrp, wsize]; omega), put_mem (by rw [dsize]; omega)]
    change (freeListRemove t h₁).mem t = 0
    rw [hremove]
    exact put_zero _ t (t+8) le_rfl
  have hlist : h₄.listp = h.listp := by
    change (freeListRemove t h₁).listp = h.listp
    rw [hremove]
    rfl
  have hend : h₄.brk = t+(c+e) := by
    change (freeListRemove t h₁).brk = t+(c+e)
    rw [hremove]
    change h.brk+e = t+(c+e)
    omega
  rw [hmerge] at heq
  refine ⟨h₄, heq, ⟨?_, ?_, by omega, ?_, ?_, ?_⟩, hmem, hfirst⟩
  · exact hs.toLaid.congr hlist hend (by rw [hend]; omega) hdvd' fun x hx _ => hmem x hx
  · refine removed_lists hs.lists _ ?_ ?_
    · change (freeListRemove t h₁).freeListHeads = _
      rw [hremove]
      rfl
    · change (freeListRemove t h₁).freeListTails = _
      rw [hremove]
      rfl
  · rw [Nat.add_comm c e] at hdvd' hlt' ⊢
    exact get_put_tag hdvd' hlt'
  · have hsum : t+(c+e) = h.brk+e := by omega
    rw [Nat.add_comm c e] at hdvd' hlt'
    rw [hsum, Nat.add_comm c e, get_put_other (by rw [hdrp, wsize, dsize]; omega)]
    exact get_put_tag hdvd' hlt'
  · have hsum : t+(c+e) = h.brk+e := by omega
    rw [hsum, get_put_other (by rw [hdrp, hdrp, wsize]; omega),
      get_put_other (by rw [hdrp, wsize, dsize]; omega), hget₂ _ (by rw [hdrp, wsize]; omega)]
    exact fresh_epilogue

/-- The first byte of a block is 0, or it comes with new memory. -/
def NewByte (answer : Answer) (t : ℕ) (b : Byte) : Prop := b = 0 ∨ ∃ contents, answer = some contents ∧ b = contents t

/-- Memory for a block at the end of the heap, if there is any. -/
theorem extend_ready (words : ℕ) {e : ℕ} (answer : Answer) (hs : Settled h bs t c) (hwords : words%2 = 0)
    (he : words*8 = e) (hdvd : 16 ∣ e) (hge : 32 ≤ e) (hlt : e < 2^64) :
    extendHeap answer words h = none ∨
      ∃ h', extendHeap answer words h = some (t, h') ∧ Ready h' bs t (c+e) ∧
        (∀ x, x+8 < t → h'.mem x = h.mem x) ∧ NewByte answer t (h'.mem t) := by
  have hsize : (if words%2 ≠ 0 then (words+1)*wsize else words*wsize)%2^64 = e := by
    rw [if_neg (by omega), wsize, he, Nat.mod_eq_of_lt hlt]
  rcases @sbrk_eq h answer e with hnone | ⟨contents, hans, hroom, _⟩
  · refine .inl ?_
    rw [extendHeap]
    simp only [hsize, hnone, Option.map_none]
  · rw [hans]
    refine .inr ?_
    by_cases hc : c = 0
    · rw [hc] at hs ⊢
      rw [Nat.zero_add]
      obtain ⟨h', hrun, hready, hm, hfirst⟩ := @extend_full _ _ _ _ _ contents hs hwords he hdvd hge hlt hroom
      exact ⟨h', hrun, hready, hm, .inr ⟨contents, rfl, hfirst⟩⟩
    · obtain ⟨h', hrun, hready, hm, hfirst⟩ := @extend_free _ _ _ _ _ _ contents hs hc hwords he hdvd hge hlt hroom
      exact ⟨h', hrun, hready, hm, .inl hfirst⟩

/-! ## `malloc` -/

theorem adjusted_fits {size : ℕ} (hlt : size+23 < 2^64) :
    16 ∣ adjusted size ∧ 32 ≤ adjusted size ∧ size+8 ≤ adjusted size ∧ adjusted size < 2^64 := by
  rw [adjusted, dsize, wsize]
  split
  · omega
  · have hmod : (size+8+(16-1))%2^64 = size+23 := Nat.mod_eq_of_lt hlt
    rw [hmod]
    refine ⟨dvd_mul_right 16 _, ?_, ?_, ?_⟩ <;> omega

/-- The heap is as before, or has one more block, with room for the request. -/
theorem malloc_settled (fuel : ℕ) (answer : Answer) (hs : Settled h bs t c) {size : ℕ}
    (hsize : size+23 < 2^64) :
    malloc (fuel+2) answer size h = some (0, h) ∨
      ∃ s t' c' h', malloc (fuel+2) answer size h = some (t, h') ∧ size+8 ≤ s ∧
        Settled h' (bs++[⟨t, s⟩]) t' c' ∧ (∀ x, x+8 < t → h'.mem x = h.mem x) ∧
        NewByte answer t (h'.mem t) := by
  obtain ⟨hdvd, hge, hroom, hlt⟩ := adjusted_fits hsize
  have hlow := hs.low_end
  by_cases hz : size = 0
  · exact .inl (if_pos hz)
  · rw [malloc, if_neg hz]
    simp only
    rw [find_fit hs fuel]
    by_cases hfit : c ≠ 0 ∧ adjusted size ≤ c
    · rw [if_pos hfit]
      obtain ⟨hready, hm, hfirst⟩ := remove_ready hs hfit.1
      obtain ⟨s, t', c', hle, hset, hm'⟩ := place_settled hready hdvd hge hfit.2
      refine .inr ⟨s, t', c', _, ?_, hroom.trans hle, hset, fun x hx => (hm' x (.inl hx)).trans (hm x hx),
        .inl ((hm' t (.inr rfl)).trans hfirst)⟩
      obtain ⟨k, hk⟩ := Nat.exists_eq_succ_of_ne_zero (by omega : t ≠ 0)
      rw [hk]
      rfl
    · rw [if_neg hfit]
      have hwords : max (adjusted size) chunksize/wsize*8 = max (adjusted size) chunksize := by
        rw [wsize, chunksize]
        omega
      rcases extend_ready (max (adjusted size) chunksize/wsize) answer hs
          (by rw [wsize, chunksize]; omega) hwords (by rw [chunksize]; omega) (by rw [chunksize]; omega)
          (by rw [chunksize]; omega) with hnone | ⟨h', hsome, hready, hm, hfirst⟩
      · simp only [hnone]
        exact .inl trivial
      · simp only [hsome]
        obtain ⟨s, t', c', hle, hset, hm'⟩ := place_settled hready hdvd hge
          ((le_max_left (adjusted size) chunksize).trans (Nat.le_add_left _ c))
        rw [← hm' t (.inr rfl)] at hfirst
        exact .inr ⟨s, t', c', _, rfl, hroom.trans hle, hset, fun x hx => (hm' x (.inl hx)).trans (hm x hx),
          hfirst⟩

/-! ## `malloc_init` -/

/-- The empty heap between the two calls of `sbrk`. -/
theorem empty_settled (h' : Heap) {p : ℕ} (hp : 16 ∣ p) (hbrk : h.brk = p+32) (hbound : h.brk ≤ 2^64)
    (hlist : h.listp = p+16) (hmem : h.mem = (put (p+3*wsize) (pack 0 true true)
      (put (p+2*wsize) (pack dsize true true) (put (p+1*wsize) (pack dsize true true) h'))).mem)
    (hheads : ∀ id < freeListNum, h.freeListHeads id = 0 ∧ h.freeListTails id = 0) :
    Settled h [] (p+32) 0 := by
  have hget : ∀ q, get h q = get (put (p+3*wsize) (pack 0 true true)
      (put (p+2*wsize) (pack dsize true true) (put (p+1*wsize) (pack dsize true true) h'))) q := by
    intro q
    rw [HeapMachine.get, HeapMachine.get, hmem]
  have hdsize : 16 ∣ dsize := dvd_refl 16
  have hrow : h.listp+dsize = p+32 := by
    rw [hlist, dsize]
  refine ⟨⟨?_, by omega, ?_, ?_, hrow, hbrk, hbound, dvd_zero 16⟩, ?_, fun _ => ?_, fun hn => absurd rfl hn⟩
  · rw [hlist]
    exact dvd_add hp (dvd_refl 16)
  · have hat : hdrp h.listp = p+1*wsize := by
      rw [hlist, hdrp, wsize]
      omega
    rw [hget, hat, get_put_other (by rw [wsize]; omega), get_put_other (by rw [wsize]; omega)]
    exact get_put_tag hdsize (by decide)
  · have hat : h.listp = p+2*wsize := by
      rw [hlist, wsize]
    rw [hget, hat, get_put_other (by rw [wsize]; omega)]
    exact get_put_tag hdsize (by decide)
  · intro id hid
    rw [if_neg fun hn => hn.1 rfl]
    exact hheads id hid
  · have hat : hdrp (p+32) = p+3*wsize := by
      rw [hdrp, wsize]
      omega
    rw [hget, hat]
    exact get_put_tag (dvd_zero 16) (by decide)

theorem init_settled {first second : Answer} (hp : 16 ∣ h.brk)
    (hinit : mallocInit first second h = (true, h')) : ∃ t, Settled h' [] t 4096 := by
  rw [mallocInit] at hinit
  rcases @sbrk_eq h first (4*wsize) with hnone | ⟨contents, _, hroom, hsome⟩
  · rw [hnone] at hinit
    cases hinit
  · rw [hsome] at hinit
    simp only at hinit
    generalize hempty : Heap.mk _ _ _ _ _ = h₁ at hinit
    have hset : Settled h₁ [] (h.brk+32) 0 := by
      refine empty_settled (put h.brk 0 (grown h contents (4*wsize))) hp ?_ ?_ ?_ ?_ ?_
      all_goals subst hempty
      · rfl
      · exact hroom
      · rfl
      · rfl
      · exact fun id hid => ⟨if_pos hid, if_pos hid⟩
    rcases @extend_ready _ _ _ _ (chunksize/wsize) 4096 second hset (by decide) (by decide)
        (by decide) (by decide) (by decide) with hnone | ⟨h₂, hsome, hready, _⟩
    · rw [hnone] at hinit
      cases hinit
    · rw [hsome] at hinit
      have heq : freeListInsert (h.brk+32) h₂ = h' := congrArg Prod.snd hinit
      rw [Nat.zero_add] at hready
      rw [← heq]
      exact ⟨_, (insert_settled hready).1⟩

end BabyOS.HeapCalls
