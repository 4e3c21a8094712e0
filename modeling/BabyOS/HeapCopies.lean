import BabyOS.HeapRequests

/-!
# Blocks that are moved

`realloc` keeps the block, or copies it to a new one. The old size in its header
counts the overhead, the new size is rounded once here and once more in `malloc`, and
`memcpy` takes the length as an `unsigned`.
-/

set_option autoImplicit false

namespace BabyOS.HeapCopies
open BabyOS.ByteWords BabyOS.HeapMachine BabyOS.HeapBlocks BabyOS.HeapCalls BabyOS.HeapIntegrity
open BabyOS.HeapRequests

/-! ## Copies -/

section Copies

variable {src dst n k : ℕ} {m : Bytes}

/-- A copy to somewhere behind the source. -/
theorem copyUp_copied (h : src+n ≤ dst) (hk : k < n) : copyUp src dst n m (dst+k) = m (src+k) := by
  induction n generalizing src dst k m with
  | zero => cases hk
  | succ n ih =>
    rw [copyUp]
    cases k with
    | zero => rw [copyUp_other _ _ _ _ (.inl (by omega)), Nat.add_zero, Nat.add_zero, Function.update_self]
    | succ k =>
      have hrest := @ih (src+1) (dst+1) k (Function.update m dst (m src)) (by omega) (by omega)
      rw [show dst+(k+1) = dst+1+k by omega, hrest, Function.update_of_ne (by omega)]
      congr 1
      omega

theorem memmov_copied (h : src+n ≤ dst) (hk : k < n) : memmov dst src n m (dst+k) = m (src+k) := by
  rw [memmov, if_neg (by omega)]
  exact copyUp_copied h hk

end Copies

/-! ## What is to be kept -/

/-- The size that `realloc` asks `malloc` for. -/
def rounded (size : ℕ) : ℕ := (size+2*dsize-1)%2^64/dsize*dsize

/-- A null pointer leaves the block as it was. Another pointer has the bytes that both
sizes cover and enough room, is the old one only if that has the room, and nothing is
written behind its block. No other payload changes. -/
structure Preserved (fuel : ℕ) (answer : Answer) (s : State) (y : Payload) (n m p : ℕ) (h : Heap) : Prop where
  null : p = 0 → getSize h (hdrp y.start) = getSize s.heap (hdrp y.start) ∧
    ∀ x, y.Holds x → h.mem x = s.heap.mem x
  copied : p ≠ 0 → ∀ k < min n m, h.mem (p+k) = s.heap.mem (y.start+k)
  usable : p ≠ 0 → Usable (s.handed.filter fun z => z ≠ y) h p m
  inPlace : p = y.start → m ≤ y.length
  bounded : ∀ g, malloc fuel answer (rounded m) s.heap = some (p, g) →
    ∀ x, x < p ∨ p+(getSize g (hdrp p)-wsize) ≤ x → h.mem x = g.mem x
  others : ∀ z ∈ s.handed, z ≠ y → ∀ x, z.Holds x → h.mem x = s.heap.mem x

def Works (fuel : ℕ) (answer : Answer) (s : State) (y : Payload) (n m : ℕ) : Prop :=
  ∃ p h, realloc fuel answer y.start m s.heap = some (p, h) ∧ Preserved fuel answer s y n m p h

/-- The state when the program has stored something else in a payload. -/
def stored (s : State) (mem : Bytes) : State := ⟨{ s.heap with mem }, s.handed⟩

theorem stored_brk (s : State) (mem : Bytes) : (stored s mem).heap.brk = s.heap.brk := rfl

section Calls

variable {h : Heap} {bs : List Block} {l : List Payload} {y : Payload} {t c n m fuel : ℕ} {answer : Answer}

theorem rounded_eq (hm : m < 2^32) : rounded m = (m+31)/16*16 := by
  rw [rounded, dsize, Nat.mod_eq_of_lt (by omega)]
  rfl

/-- The header of a payload has its length and a word more. -/
theorem payload_size (hs : Settled h bs t c) (hl : Handed bs l) (hy : y ∈ l) :
    getSize h (hdrp y.start) = y.length+8 ∧ 16 ∣ y.length+8 ∧ 32 ≤ y.start ∧ y.start+(y.length+8) ≤ t := by
  have ⟨hstart, hend, _, hdvd, hlt, htag⟩ := hs.row.mem (hl.mem y hy)
  have hlow := hs.low
  rw [dsize] at hstart
  exact ⟨tag_size hdvd hlt htag, hdvd, hstart.trans' (by omega), hend⟩

/-- Payloads keep away from each other, with the word between them. -/
theorem payload_apart (hs : Settled h bs t c) (hl : Handed bs l) (hy : y ∈ l) {z : Payload} (hz : z ∈ l) (hne : z ≠ y) :
    z.start+z.length+8 ≤ y.start ∨ y.start+y.length+8 ≤ z.start := by
  have hne' : Block.mk z.start (z.length+8) ≠ ⟨y.start, y.length+8⟩ := by
    intro he
    have ⟨hstart, hlength⟩ := Block.mk.inj he
    apply hne
    cases z
    cases y
    simp only at hstart hlength
    rw [hstart, Nat.add_right_cancel hlength]
  have := block_apart hs.row (hl.mem z hz) (hl.mem y hy) hne'
  simp only at this
  omega

theorem realloc_kept (hq : y.start ≠ 0) (hz : m ≠ 0) (hfits : rounded m ≤ getSize h (hdrp y.start)) :
    realloc fuel answer y.start m h = some (y.start, h) := by
  rw [realloc, if_neg hq, if_neg hz]
  exact if_pos hfits

theorem realloc_null {g : Heap} (hq : y.start ≠ 0) (hz : m ≠ 0) (hfits : ¬ rounded m ≤ getSize h (hdrp y.start))
    (he : malloc fuel answer (rounded m) h = some (0, g)) : realloc fuel answer y.start m h = some (0, g) := by
  rw [rounded] at hfits he
  rw [realloc, if_neg hq, if_neg hz]
  dsimp only
  rw [if_neg hfits, he]
  rfl

theorem realloc_copy {g : Heap} (hq : y.start ≠ 0) (hz : m ≠ 0) (ht : t ≠ 0)
    (hfits : ¬ rounded m ≤ getSize h (hdrp y.start)) (he : malloc fuel answer (rounded m) h = some (t, g)) :
    realloc fuel answer y.start m h = some (t, memcpy t y.start (getSize h (hdrp y.start)) g) := by
  obtain ⟨k, rfl⟩ := Nat.exists_eq_succ_of_ne_zero ht
  rw [rounded] at hfits he
  rw [realloc, if_neg hq, if_neg hz]
  dsimp only
  rw [if_neg hfits, he]
  simp only
  rw [if_neg fun hlt => hfits hlt.le]
  rfl

/-! ## One call -/

/-- The block is large enough. -/
theorem kept_works (hs : Settled h bs t c) (hl : Handed bs l) (hy : y ∈ l) (hm : 0 < m) (hlt : m < 2^32)
    (hfits : rounded m ≤ y.length+8) : Works (fuel+2) answer ⟨h, l⟩ y n m := by
  obtain ⟨hsize, _, hlow, hend⟩ := payload_size hs hl hy
  have hbrk := hs.brk
  have hround := rounded_eq hlt
  have hrun := @realloc_kept h y m (fuel+2) answer (by omega) (by omega) (by rw [hsize]; exact hfits)
  refine ⟨y.start, h, hrun, ⟨fun _ => ⟨rfl, fun _ _ => rfl⟩, fun _ _ _ => rfl, fun _ => ⟨by omega, ?_, ?_⟩,
    fun _ => by omega, fun g hg => ?_, fun _ _ _ _ _ => rfl⟩⟩
  · rw [hsize, wsize]
    omega
  · intro z hz
    obtain ⟨hzl, hne⟩ := List.mem_filter.mp hz
    have := payload_apart hs hl hy hzl (of_decide_eq_true hne)
    omega
  · -- a new block is elsewhere
    rcases malloc_result fuel answer hs (by omega : rounded m ≠ 0) with ⟨_, he⟩ | ⟨_, h', he, _⟩
    · have := (Prod.mk.inj (Option.some.inj (he.symm.trans hg))).1
      omega
    · have := (Prod.mk.inj (Option.some.inj (he.symm.trans hg))).1
      omega

/-- There is no new block. -/
theorem null_works (hs : Settled h bs t c) (hl : Handed bs l) (hy : y ∈ l) (hm : 0 < m)
    (hfits : ¬ rounded m ≤ y.length+8) (he : malloc (fuel+2) answer (rounded m) h = some (0, h)) :
    Works (fuel+2) answer ⟨h, l⟩ y n m := by
  have ⟨hsize, _, hlow, _⟩ := payload_size hs hl hy
  have hrun := @realloc_null h y m (fuel+2) answer h (by omega) (by omega) (by rw [hsize]; exact hfits) he
  refine ⟨0, h, hrun, ⟨fun _ => ⟨rfl, fun _ _ => rfl⟩, fun hp => absurd rfl hp, fun hp => absurd rfl hp,
    fun hp => absurd hp (by omega), fun g hg x _ => ?_, fun _ _ _ _ _ => rfl⟩⟩
  rw [(Prod.mk.inj (Option.some.inj (he.symm.trans hg))).2]

/-- The block is moved, and its size is not cut off when it is made an `unsigned`. -/
theorem moved_works (hs : Settled h bs t c) (hl : Handed bs l) (hy : y ∈ l) (hn : n ≤ y.length) (hm : 0 < m)
    (hlt : m < 2^32) (hfits : ¬ rounded m ≤ y.length+8) (hshort : y.length+8 < 2^32) {s t' c' : ℕ} {g : Heap}
    (he : malloc (fuel+2) answer (rounded m) h = some (t, g)) (hroom : rounded m+8 ≤ s)
    (hg : Settled g (bs++[⟨t, s⟩]) t' c') (hsame : ∀ x, x+8 < t → g.mem x = h.mem x) :
    Works (fuel+2) answer ⟨h, l⟩ y n m := by
  obtain ⟨hsize, _, hlow, hend⟩ := payload_size hs hl hy
  have hround := rounded_eq hlt
  have hrun := @realloc_copy h y t m (fuel+2) answer g (by omega) (by omega) (by omega)
    (by rw [hsize]; exact hfits) he
  have hmod : (y.length+8)%2^32 = y.length+8 := Nat.mod_eq_of_lt hshort
  obtain ⟨_, htop, _, hdvd, hbound, htag⟩ := hg.row.mem (List.mem_append_right bs (List.mem_singleton.mpr rfl))
  have hnew : getSize g (hdrp t) = s := tag_size hdvd hbound htag
  have hbrk := hg.brk
  simp only at htop
  rw [hsize] at hrun
  have hout : ∀ x, x < t ∨ t+(y.length+8) ≤ x → (memcpy t y.start (y.length+8) g).mem x = g.mem x := by
    intro x hx
    refine memmov_other _ _ _ _ ?_
    rw [hmod]
    exact hx
  have hothers : ∀ z ∈ l, ∀ x, z.Holds x → (memcpy t y.start (y.length+8) g).mem x = h.mem x := by
    intro z hz x hx
    have hbelow := handed_below hs hl hz hx
    exact (hout x (.inl (by omega))).trans (hsame x hbelow)
  refine ⟨t, _, hrun, ⟨fun hp => absurd hp (by omega), fun _ k hk => ?_, fun _ => ⟨?_, ?_, ?_⟩,
    fun hp => absurd hp (by omega), fun g' hg' x hx => ?_, fun z hz _ => hothers z hz⟩⟩
  · have hk' : k < y.length+8 := by omega
    have hcopied := @memmov_copied y.start t (y.length+8) k g.mem (by omega) hk'
    change memmov t y.start ((y.length+8)%2^32) g.mem (t+k) = h.mem (y.start+k)
    rw [hmod, hcopied, hsame _ (by omega)]
  · change t+m ≤ g.brk
    omega
  · have hget : get (memcpy t y.start (y.length+8) g) (hdrp t) = get g (hdrp t) :=
      get_congr fun x _ hx => hout x (.inl (by rw [hdrp, wsize] at hx; omega))
    rw [getSize, hget]
    change m+wsize ≤ getSize g (hdrp t)
    rw [hnew, wsize]
    omega
  · intro z hz
    obtain ⟨_, _, _, hzend⟩ := payload_size hs hl (List.mem_filter.mp hz).1
    exact .inl (by omega)
  · rw [← (Prod.mk.inj (Option.some.inj (he.symm.trans hg'))).2, hnew, wsize] at hx
    rw [← (Prod.mk.inj (Option.some.inj (he.symm.trans hg'))).2]
    exact hout x (by omega)

/-- The only size that is cut off is 2^32. -/
theorem realloc_works (hs : Settled h bs t c) (hl : Handed bs l) (hy : y ∈ l) (hn : n ≤ y.length) (hm : 0 < m)
    (hlt : m < 2^32) (hok : ¬ (y.length+8 = 2^32 ∧ 2^32-15 ≤ m ∧ ¬ Refused h answer (adjusted (rounded m)))) :
    Works (fuel+2) answer ⟨h, l⟩ y n m := by
  have hround := rounded_eq hlt
  have ⟨_, hdvd, _, _⟩ := payload_size hs hl hy
  by_cases hfits : rounded m ≤ y.length+8
  · exact kept_works hs hl hy hm hlt hfits
  · rcases malloc_settled fuel answer hs (by omega : rounded m+23 < 2^64) with he | ⟨s, t', c', g, he, hroom, hg, hsame, _⟩
    · exact null_works hs hl hy hm hfits he
    · have hopen : ¬ Refused h answer (adjusted (rounded m)) := by
        intro hrefused
        rcases malloc_result fuel answer hs (by omega : rounded m ≠ 0) with ⟨_, he'⟩ | ⟨hopen, _⟩
        · have := (Prod.mk.inj (Option.some.inj (he.symm.trans he'))).1
          have := hs.low_end
          omega
        · exact hopen hrefused
      refine moved_works hs hl hy hn hm hlt hfits ?_ he hroom hg hsame
      by_contra hlong
      exact hok ⟨by omega, by omega, hopen⟩

/-- Of a block of 2^32 bytes nothing is copied. -/
theorem realloc_loses (hs : Settled h bs t c) (hl : Handed bs l) (hy : y ∈ l) (hn : 0 < n) (hlt : m < 2^32)
    (hsize : y.length+8 = 2^32) (hge : 2^32-15 ≤ m) (hopen : ¬ Refused h answer (adjusted (rounded m)))
    (hbyte : ¬ NewByte answer t (h.mem y.start)) : ¬ Works (fuel+2) answer ⟨h, l⟩ y n m := by
  have hround := rounded_eq hlt
  have hlow := hs.low_end
  have ⟨hold, _, hstart, _⟩ := payload_size hs hl hy
  have hfits : ¬ rounded m ≤ getSize h (hdrp y.start) := by omega
  rcases malloc_settled fuel answer hs (by omega : rounded m+23 < 2^64) with he | ⟨s, t', c', g, he, _, _, _, hfirst⟩
  · exfalso
    rcases malloc_result fuel answer hs (by omega : rounded m ≠ 0) with ⟨hrefused, _⟩ | ⟨_, h', he', _⟩
    · exact hopen hrefused
    · have := (Prod.mk.inj (Option.some.inj (he.symm.trans he'))).1
      omega
  · have hrun := @realloc_copy h y t m (fuel+2) answer g (by omega) (by omega) (by omega) hfits he
    rintro ⟨p, h', he', hpreserved⟩
    obtain ⟨rfl, rfl⟩ := Prod.mk.inj (Option.some.inj (hrun.symm.trans he'))
    have hnothing : (memcpy t y.start (getSize h (hdrp y.start)) g).mem = g.mem := by
      rw [hold, hsize, memcpy, Nat.mod_self, memmov, if_neg (by omega)]
      rfl
    have hcopied := hpreserved.copied (by omega) 0 (by omega)
    rw [hnothing] at hcopied
    rw [Nat.add_zero, Nat.add_zero] at hcopied
    rw [hcopied] at hfirst
    exact hbyte hfirst

/-- Stores in a payload leave the heap settled. -/
theorem stored_settled (hs : Settled h bs t c) (hl : Handed bs l) (hy : y ∈ l) {mem : Bytes}
    (hmem : ∀ x, ¬ y.Holds x → mem x = h.mem x) : Settled { h with mem } bs t c :=
  hs.congr rfl rfl rfl rfl fun x hout => hmem x fun hx => by
    obtain ⟨b, hb, hin⟩ := handed_payload hl hy hx
    exact hout b hb hin

end Calls

/-- For all bytes that the block may hold, `realloc` keeps them or leaves the block as it
was, if and only if the block has not exactly 2^32 bytes and has to be moved. -/
theorem realloc_exact {fuel : ℕ} {s : State} (h : Reachable (fuel+2) s) (answer : Answer) {y : Payload}
    (hy : y ∈ s.handed) {n m : ℕ} (hn : 0 < n) (hle : n ≤ y.length) (hm : 0 < m) (hlt : m < 2^32) :
    (∀ mem, (∀ x, ¬ y.Holds x → mem x = s.heap.mem x) → Works (fuel+2) answer (stored s mem) y n m) ↔
      ¬ (y.length+8 = 2^32 ∧ 2^32-15 ≤ m ∧ ¬ Refused s.heap answer (adjusted (rounded m))) := by
  have ⟨bs, t, c, hs, hl⟩ := reachable_settled h
  constructor
  · rintro hworks ⟨hsize, hge, hopen⟩
    -- a byte that the new block has not by accident
    have hbyte : ∃ b, ¬ NewByte answer t b := by
      cases answer with
      | none => exact ⟨1, fun hb => hb.elim (fun he => by cases he) fun ⟨_, he, _⟩ => by cases he⟩
      | some contents =>
        by_cases h1 : contents t = 1
        · refine ⟨2, fun hb => hb.elim (fun he => by cases he) fun ⟨_, he, hb⟩ => ?_⟩
          rw [← Option.some.inj he, h1] at hb
          cases hb
        · refine ⟨1, fun hb => hb.elim (fun he => by cases he) fun ⟨_, he, hb⟩ => ?_⟩
          rw [← Option.some.inj he] at hb
          exact h1 hb.symm
    obtain ⟨b, hb⟩ := hbyte
    have hother : ∀ x, ¬ y.Holds x → Function.update s.heap.mem y.start b x = s.heap.mem x := by
      intro x hx
      refine Function.update_of_ne (fun he => hx ?_) _ _
      rw [he]
      exact ⟨le_rfl, by omega⟩
    have hs' := stored_settled hs hl hy hother
    refine realloc_loses hs' hl hy hn hlt hsize hge ?_ ?_ (hworks _ hother)
    · rw [refused_iff hs']
      rw [refused_iff hs] at hopen
      exact hopen
    · change ¬ NewByte answer t (Function.update s.heap.mem y.start b y.start)
      rw [Function.update_self]
      exact hb
  · intro hok mem hmem
    have hs' := stored_settled hs hl hy hmem
    refine realloc_works hs' hl hy hle hm hlt fun ⟨hsize, hge, hopen⟩ => hok ⟨hsize, hge, ?_⟩
    rw [refused_iff hs]
    rw [refused_iff hs'] at hopen
    exact hopen

/-! ## A block of 2^32 bytes -/

def zeros : Answer := some fun _ => 0

/-- The heap after a request for 2^32-8 bytes. -/
def bigHeap : Heap := ((malloc 2 zeros (2^32-8) booted).map Prod.snd).getD booted

def bigPayload : Payload := ⟨4128, 2^32-8⟩

def big : State := ⟨bigHeap, [bigPayload]⟩

theorem bigHeap_run : malloc 2 zeros (2^32-8) booted = some (4128, bigHeap) := by
  have hpointer : (malloc 2 zeros (2^32-8) booted).map Prod.fst = some 4128 := by decide +kernel
  obtain ⟨⟨p, h⟩, he, rfl⟩ := Option.map_eq_some_iff.mp hpointer
  rw [bigHeap, he]
  rfl

theorem big_brk : big.heap.brk = 2^32+8224 := by decide +kernel

theorem big_reachable : Reachable 2 big := by
  have hrun : Call.run 2 zeros (.malloc (2^32-8)) booted = some (4128, bigHeap) := bigHeap_run
  have hallowed : Allowed [] (.malloc (2^32-8)) := by
    change 2^32-8+23 < 2^64
    norm_num
  have hcall := Reachable.call (booted_reachable 2) hallowed hrun
  have hsize : getSize bigHeap (hdrp 4128) = 2^32 := by decide +kernel
  have hout : handedAfter [] 4128 bigHeap (.malloc (2^32-8)) = [bigPayload] := by
    change handOut 4128 bigHeap [] = _
    rw [handOut, if_neg (by decide), hsize]
    rfl
  rw [big, ← hout]
  exact hcall

theorem realloc_exact_big :
    (∀ mem, (∀ x, ¬ bigPayload.Holds x → mem x = big.heap.mem x) →
        Works 2 zeros (stored big mem) bigPayload 1 100) ↔
      ¬ (bigPayload.length+8 = 2^32 ∧ 2^32-15 ≤ 100 ∧ ¬ Refused big.heap zeros (adjusted (rounded 100))) :=
  @realloc_exact 0 big big_reachable zeros bigPayload (List.mem_singleton.mpr rfl) 1 100
    (by decide) (by decide +kernel) (by decide) (by decide)

/-- The state where the block starts with a 1. -/
def marked : State := stored big (Function.update bigHeap.mem 4128 1)

theorem marked_reachable : Reachable 2 marked := by
  refine Reachable.store big_reachable fun x hx => Function.update_of_ne (fun he => ?_) _ _
  refine hx bigPayload (List.mem_singleton.mpr rfl) ?_
  rw [he]
  exact ⟨le_rfl, by decide⟩

theorem marked_first : marked.heap.mem 4128 = 1 := Function.update_self (β := fun _ => Byte) 4128 1 bigHeap.mem

theorem marked_brk : marked.heap.brk = 2^32+8224 := (stored_brk big _).trans big_brk

theorem marked_open : ¬ Refused marked.heap zeros (adjusted (rounded (2^32-1))) := by
  have hsize : max (adjusted (rounded (2^32-1))) chunksize ≤ 2^33 := by decide
  rw [Refused, marked_brk]
  intro h
  rcases h.2 with hnone | hlong
  · cases hnone
  · omega

/-- The 1 is lost when the block grows to 2^32-1 bytes. -/
theorem copy_lost : Reachable 2 marked ∧ marked.heap.mem 4128 = 1 ∧ ¬ Works 2 zeros marked bigPayload 1 (2^32-1) := by
  refine ⟨marked_reachable, marked_first, ?_⟩
  have ⟨bs, t, c, hs, hl⟩ := @reachable_settled 0 _ marked_reachable
  refine realloc_loses hs hl (List.mem_singleton.mpr rfl) Nat.one_pos (by decide) (by decide) (by decide) marked_open ?_
  change ¬ NewByte zeros t (marked.heap.mem 4128)
  rw [marked_first]
  rintro (he | ⟨contents, he, hb⟩)
  · cases he
  · rw [← Option.some.inj he] at hb
    cases hb

end BabyOS.HeapCopies
