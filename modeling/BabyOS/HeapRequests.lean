import BabyOS.HeapIntegrity

/-!
# Requests of any size

`malloc` and `calloc` for sizes that wrap when they are rounded or multiplied. The
size of the block for a request is then 0 or 16, or that of the wrapped product,
and the calls go on with it.
-/

set_option autoImplicit false

namespace BabyOS.HeapRequests
open BabyOS.ByteWords BabyOS.HeapMachine BabyOS.HeapBlocks BabyOS.HeapCalls BabyOS.HeapIntegrity

/-! ## Usable bytes -/

/-- The bytes lie before the break, in the block of the pointer and in no payload that
was handed out. -/
structure Usable (l : List Payload) (h : Heap) (p n : ℕ) : Prop where
  below : p+n ≤ h.brk
  block : n+wsize ≤ getSize h (hdrp p)
  apart : ∀ y ∈ l, y.start+y.length ≤ p ∨ p+n ≤ y.start

/-- The call returns a null pointer or one to so many bytes. -/
def Granted (l : List Payload) (r : Option (ℕ × Heap)) (n : ℕ) : Prop :=
  ∃ p h, r = some (p, h) ∧ (p = 0 ∨ Usable l h p n)

/-- No list starts with a block of the size, and `sbrk` fails. -/
def Refused (h : Heap) (answer : Answer) (asize : ℕ) : Prop :=
  (∀ id < freeListNum, h.freeListHeads id = 0 ∨ getSize h (hdrp (h.freeListHeads id)) < asize) ∧
    (answer = none ∨ 2^64 < h.brk+max asize chunksize)

/-! ## The break -/

section Break

variable {h g g' : Heap} {b : ℕ}

theorem ite_brk (cond : Prop) [Decidable cond] (hg : g.brk = b) (hg' : g'.brk = b) :
    (if cond then g else g').brk = b := by
  split
  · exact hg
  · exact hg'

theorem insert_brk (p : ℕ) (h : Heap) : (freeListInsert p h).brk = h.brk := ite_brk _ rfl rfl

theorem place_brk (p a : ℕ) (h : Heap) : (place p a h).brk = h.brk :=
  ite_brk _ ((insert_brk _ _).trans (ite_brk _ rfl rfl)) (ite_brk _ rfl rfl)

end Break

section Requests

variable {h : Heap} {bs : List Block} {l : List Payload} {t c size asize : ℕ} {answer : Answer}

/-- The sizes of blocks are multiples of 16, also when they wrap. -/
theorem adjusted_dvd (size : ℕ) : 16 ∣ adjusted size ∧ adjusted size < 2^64 := by
  rw [adjusted]
  split
  · rw [dsize]
    decide
  · have hlt := Nat.mod_lt (size+wsize+(dsize-1)) (Nat.two_pow_pos 64)
    rw [dsize] at hlt ⊢
    generalize (size+wsize+(16-1))%2^64 = x at hlt ⊢
    omega

/-- In a settled heap only the free block counts. -/
theorem refused_iff (hs : Settled h bs t c) :
    Refused h answer asize ↔ ¬ (c ≠ 0 ∧ asize ≤ c) ∧ (answer = none ∨ 2^64 < h.brk+max asize chunksize) := by
  have hlow := hs.low_end
  rw [Refused]
  refine and_congr_left fun _ => ?_
  constructor
  · rintro hsmall ⟨hc, hle⟩
    have hhead := (hs.lists _ (headId_lt c)).1
    rw [if_pos ⟨hc, rfl⟩] at hhead
    have hsize : getSize h (hdrp t) = c := tag_size hs.rest (Laid.rest_lt hs.toLaid) (hs.free hc).2.1
    have hcase := hsmall _ (headId_lt c)
    rw [hhead, hsize] at hcase
    omega
  · intro hno id hid
    have hhead := (hs.lists id hid).1
    by_cases hin : c ≠ 0 ∧ id = getFreeListHeadId c
    · rw [if_pos hin] at hhead
      have hsize : getSize h (hdrp t) = c := tag_size hs.rest (Laid.rest_lt hs.toLaid) (hs.free hin.1).2.1
      rw [hhead, hsize]
      exact .inr (not_le.mp fun hle => hno ⟨hin.1, hle⟩)
    · rw [if_neg hin] at hhead
      exact .inl hhead

theorem extend_none {words e : ℕ} (hwords : words%2 = 0) (he : words*8 = e) (hlt : e < 2^64) :
    extendHeap answer words h = none ↔ answer = none ∨ 2^64 < h.brk+e := by
  have hsize : (if words%2 ≠ 0 then (words+1)*wsize else words*wsize)%2^64 = e := by
    rw [if_neg (by omega), wsize, he, Nat.mod_eq_of_lt hlt]
  rw [extendHeap]
  simp only [hsize, Option.map_eq_none_iff]
  cases answer with
  | none => exact ⟨fun _ => .inl rfl, fun _ => rfl⟩
  | some contents =>
    rw [sbrk]
    by_cases hroom : h.brk+e ≤ 2^64
    · simp only [if_pos hroom, reduceCtorEq, false_or, false_iff]
      omega
    · simp only [if_neg hroom, reduceCtorEq, false_or, true_iff]
      omega

/-- A request that is not for nothing returns the end of the allocated blocks, unless
it is refused. -/
theorem malloc_result (fuel : ℕ) (answer : Answer) (hs : Settled h bs t c) (hz : size ≠ 0) :
    (Refused h answer (adjusted size) ∧ malloc (fuel+2) answer size h = some (0, h)) ∨
      (¬ Refused h answer (adjusted size) ∧
        ∃ h', malloc (fuel+2) answer size h = some (t, h') ∧ h'.brk ≤ 2^64) := by
  obtain ⟨hdvd, hlt⟩ := adjusted_dvd size
  have hlow := hs.low_end
  rw [refused_iff hs, malloc, if_neg hz]
  simp only
  rw [find_fit hs fuel]
  by_cases hfit : c ≠ 0 ∧ adjusted size ≤ c
  · rw [if_pos hfit]
    obtain ⟨hready, _⟩ := remove_ready hs hfit.1
    refine .inr ⟨fun hn => hn.1 hfit, place t (adjusted size) (freeListRemove t h), ?_, ?_⟩
    · obtain ⟨k, hk⟩ := Nat.exists_eq_succ_of_ne_zero (by omega : t ≠ 0)
      rw [hk]
      rfl
    · rw [place_brk]
      exact hready.bound
  · rw [if_neg hfit]
    have hwords : max (adjusted size) chunksize/wsize*8 = max (adjusted size) chunksize := by
      rw [wsize, chunksize]
      omega
    have heven : max (adjusted size) chunksize/wsize%2 = 0 := by
      rw [wsize, chunksize]
      omega
    have hroom : max (adjusted size) chunksize < 2^64 := by
      rw [chunksize]
      omega
    have hnone := @extend_none h answer _ _ heven hwords hroom
    rcases extend_ready (max (adjusted size) chunksize/wsize) answer hs heven hwords
        (by rw [chunksize]; omega) (by rw [chunksize]; omega) hroom with he | ⟨h', he, hready, _⟩
    · simp only [he]
      exact .inl ⟨⟨hfit, hnone.mp he⟩, trivial⟩
    · simp only [he]
      refine .inr ⟨fun hn => ?_, place t (adjusted size) h', rfl, ?_⟩
      · rw [hnone.mpr hn.2] at he
        cases he
      · rw [place_brk]
        exact hready.bound

/-- What `malloc` gives for a size that does not wrap is usable. -/
theorem malloc_granted (fuel : ℕ) (answer : Answer) (hs : Settled h bs t c) (hl : Handed bs l)
    (hsize : size+23 < 2^64) : Granted l (malloc (fuel+2) answer size h) size := by
  rcases malloc_settled fuel answer hs hsize with he | ⟨s, t', c', h', he, hroom, hs', _⟩
  · exact ⟨0, h, he, .inl rfl⟩
  · obtain ⟨_, hend, _, hdvd, hlt, htag⟩ := hs'.row.mem (List.mem_append_right bs (List.mem_singleton.mpr rfl))
    have htop : getSize h' (hdrp t) = s := tag_size hdvd hlt htag
    have hbrk := hs'.brk
    simp only at hend
    refine ⟨t, h', he, .inr ⟨by omega, by rw [htop, wsize]; omega, fun y hy => .inl ?_⟩⟩
    obtain ⟨_, hbelow, _⟩ := hs.row.mem (hl.mem y hy)
    simp only at hbelow
    omega

/-- There are never so many bytes behind a pointer. -/
theorem huge_granted {n p : ℕ} {h' : Heap} (hp : 32 ≤ p) (hbrk : h'.brk ≤ 2^64) (hn : 2^64 ≤ n+23) :
    ¬ Granted l (some (p, h')) n := by
  rintro ⟨q, g, he, hcase⟩
  obtain ⟨rfl, rfl⟩ := Prod.mk.inj (Option.some.inj he)
  rcases hcase with h0 | husable
  · omega
  · have := husable.below
    omega

/-- Zeros in the block leave it usable. -/
theorem usable_memset {p n : ℕ} (hp : 8 ≤ p) (k : ℕ) (hu : Usable l h p n) : Usable l (memset p k h) p n := by
  refine ⟨hu.below, ?_, hu.apart⟩
  have hget : get (memset p k h) (hdrp p) = get h (hdrp p) :=
    get_congr fun x _ hx => fill_other _ _ _ (.inl (by rw [hdrp, wsize] at hx; omega))
  rw [getSize, hget]
  exact hu.block

theorem calloc_some {nmemb p : ℕ} {h' : Heap} (fuel : ℕ) (answer : Answer) (hp : p ≠ 0)
    (he : malloc (fuel+2) answer (size*nmemb%2^64) h = some (p, h')) :
    calloc (fuel+2) answer nmemb size h = some (p, memset p (size*nmemb%2^64) h') := by
  rw [calloc]
  simp only [he, Option.map_some]
  rw [if_pos hp]

theorem calloc_none {nmemb : ℕ} {h' : Heap} (fuel : ℕ) (answer : Answer)
    (he : malloc (fuel+2) answer (size*nmemb%2^64) h = some (0, h')) :
    calloc (fuel+2) answer nmemb size h = some (0, h') := by
  rw [calloc]
  simp only [he, Option.map_some]
  rw [if_neg fun hn => hn rfl]

theorem calloc_granted (fuel : ℕ) (answer : Answer) (hs : Settled h bs t c) (hl : Handed bs l) {nmemb : ℕ}
    (hsize : nmemb*size+23 < 2^64) : Granted l (calloc (fuel+2) answer nmemb size h) (nmemb*size) := by
  have hmod : size*nmemb%2^64 = nmemb*size := by
    rw [Nat.mul_comm, Nat.mod_eq_of_lt (by omega)]
  have hlow := hs.low_end
  have hgranted := malloc_granted fuel answer hs hl hsize
  rw [← hmod] at hgranted
  obtain ⟨p, h', he, hcase⟩ := hgranted
  by_cases hp : p = 0
  · rw [hp] at he
    exact ⟨0, h', calloc_none fuel answer he, .inl rfl⟩
  · have hu := hcase.resolve_left hp
    rw [hmod] at hu
    refine ⟨p, _, calloc_some fuel answer hp he, .inr (usable_memset ?_ _ hu)⟩
    have hwrap : size*nmemb%2^64+23 < 2^64 := by
      rw [hmod]
      exact hsize
    rcases malloc_settled fuel answer hs hwrap with hnone | ⟨s, t', c', h'', hsome, _⟩
    · rw [he] at hnone
      exact absurd (Prod.mk.inj (Option.some.inj hnone)).1 hp
    · rw [he] at hsome
      rw [(Prod.mk.inj (Option.some.inj hsome)).1]
      omega

end Requests

/-- `malloc` gives at least what is asked for, or nothing, if and only if the size can
be rounded or the request is refused; `calloc` if and only if the product can be
rounded, wraps to zero, or is refused. -/
theorem requests_exact {fuel : ℕ} {s : State} (h : Reachable (fuel+2) s) (answer : Answer) :
    (∀ size < 2^64, Granted s.handed (malloc (fuel+2) answer size s.heap) size ↔
      size+23 < 2^64 ∨ Refused s.heap answer (adjusted size)) ∧
    ∀ nmemb < 2^64, ∀ size < 2^64, Granted s.handed (calloc (fuel+2) answer nmemb size s.heap) (nmemb*size) ↔
      nmemb*size+23 < 2^64 ∨ 2^64 ∣ nmemb*size ∨ Refused s.heap answer (adjusted (nmemb*size%2^64)) := by
  have ⟨bs, t, c, hs, hl⟩ := reachable_settled h
  have hlow := hs.low_end
  have ht : t ≠ 0 := by omega
  constructor
  · intro size _
    constructor
    · intro hgranted
      by_contra hno
      have ⟨hwrap, hopen⟩ := not_or.mp hno
      rcases malloc_result fuel answer hs (by omega : size ≠ 0) with ⟨hrefused, _⟩ | ⟨_, h', he, hbrk⟩
      · exact hopen hrefused
      · rw [he] at hgranted
        exact huge_granted hlow hbrk (by omega) hgranted
    · rintro (hsize | hrefused)
      · exact malloc_granted fuel answer hs hl hsize
      · by_cases hz : size = 0
        · exact ⟨0, s.heap, if_pos hz, .inl rfl⟩
        · rcases malloc_result fuel answer hs hz with ⟨_, he⟩ | ⟨hopen, _⟩
          · exact ⟨0, s.heap, he, .inl rfl⟩
          · exact absurd hrefused hopen
  · intro nmemb _ size _
    have hcomm := Nat.mul_comm size nmemb
    by_cases hz : nmemb*size%2^64 = 0
    · refine iff_of_true ⟨0, s.heap, calloc_none fuel answer ?_, .inl rfl⟩ (.inr (.inl (Nat.dvd_of_mod_eq_zero hz)))
      rw [hcomm]
      exact if_pos hz
    · rcases malloc_result fuel answer hs hz with ⟨hrefused, he⟩ | ⟨hopen, h', he, hbrk⟩
      · rw [← hcomm] at he
        exact iff_of_true ⟨0, s.heap, calloc_none fuel answer he, .inl rfl⟩ (.inr (.inr hrefused))
      · rw [← hcomm] at he
        constructor
        · intro hgranted
          by_contra hno
          have hbrk' : (memset t (size*nmemb%2^64) h').brk ≤ 2^64 := hbrk
          rw [calloc_some fuel answer ht he] at hgranted
          exact huge_granted hlow hbrk' (not_lt.mp fun hlt => hno (.inl hlt)) hgranted
        · rintro (hsize | hdvd | hrefused)
          · exact calloc_granted fuel answer hs hl hsize
          · exact absurd (Nat.mod_eq_zero_of_dvd hdvd) hz
          · exact absurd hrefused hopen

/-- The heap of a process that has asked for nothing. -/
theorem requests_exact_booted :
    (∀ size < 2^64, Granted [] (malloc 2 none size booted) size ↔
      size+23 < 2^64 ∨ Refused booted none (adjusted size)) ∧
    ∀ nmemb < 2^64, ∀ size < 2^64, Granted [] (calloc 2 none nmemb size booted) (nmemb*size) ↔
      nmemb*size+23 < 2^64 ∨ 2^64 ∣ nmemb*size ∨ Refused booted none (adjusted (nmemb*size%2^64)) :=
  requests_exact (booted_reachable 2) none

/-- There a request for all addresses but one gets a pointer. -/
theorem huge_request : Reachable 2 ⟨booted, []⟩ ∧ ¬ Granted [] (malloc 2 none (2^64-1) booted) (2^64-1) := by
  have hpointer : (malloc 2 none (2^64-1) booted).map (fun r => (r.1, r.2.brk)) = some (4128, 8224) := by
    decide +kernel
  refine ⟨booted_reachable 2, ?_⟩
  obtain ⟨⟨p, h⟩, he, heq⟩ := Option.map_eq_some_iff.mp hpointer
  obtain ⟨hp, hbrk⟩ := Prod.mk.inj heq
  simp only at hp hbrk
  rw [he]
  rintro ⟨q, g, hq, hcase⟩
  obtain ⟨rfl, rfl⟩ := Prod.mk.inj (Option.some.inj hq)
  rcases hcase with h0 | hu
  · omega
  · have := hu.below
    omega

end BabyOS.HeapRequests
