import BabyOS.SocketBuffers

/-!
# What the stream buffer holds

Each unit of a semaphore is either in its count, or with a process that has not
used it yet, or with one that has to pass it on. With these counted in, the two
semaphores count the bytes that are stored and the room that is left.
-/

set_option autoImplicit false

namespace BabyOS.SocketStreams
open BabyOS.RangeSums BabyOS.SocketBuffers

/-- The buffer holds `pending`, in order, from the read index on. -/
structure Holds (s : Ring) (pending : List ℕ) : Prop where
  room : s.left+pending.length = s.length
  start : s.readIndex < s.length
  stop : s.writeIndex = (s.readIndex+pending.length)%s.length
  bytes : ∀ i byte, pending[i]? = some byte → s.buffer ((s.readIndex+i)%s.length) = byte

section Bytes

variable {s : Ring} {pending : List ℕ}

theorem Holds.put (h : Holds s pending) (ch : ℕ) (hs : s.length < 2^32) (hl : 0 < s.left) :
    Holds (s.put ch) (pending ++ [ch]) := by
  have hroom := h.room
  have hleft : (s.left+(2^32-1))%2^32 = s.left-1 := by omega
  refine ⟨?_, h.start, ?_, fun i byte hi => ?_⟩
  · change (s.left+(2^32-1))%2^32+(pending ++ [ch]).length = s.length
    rw [hleft, List.length_append, List.length_singleton]
    omega
  · change (s.writeIndex+1)%s.length = (s.readIndex+(pending ++ [ch]).length)%s.length
    rw [h.stop, List.length_append, List.length_singleton, Nat.mod_add_mod, Nat.add_assoc]
  · change Function.update s.buffer s.writeIndex ch ((s.readIndex+i)%s.length) = byte
    rw [h.stop, Function.update_apply]
    have hlt : i < (pending ++ [ch]).length := (List.getElem?_eq_some_iff.mp hi).1
    rw [List.length_append, List.length_singleton] at hlt
    by_cases hlast : i = pending.length
    · rw [hlast, if_pos rfl]
      rw [hlast, List.getElem?_concat_length] at hi
      exact Option.some.inj hi
    · have hother : (s.readIndex+i)%s.length ≠ (s.readIndex+pending.length)%s.length := by
        intro he
        have hmod : i%s.length = pending.length%s.length := Nat.ModEq.add_left_cancel' s.readIndex he
        rw [Nat.mod_eq_of_lt (by omega), Nat.mod_eq_of_lt (by omega)] at hmod
        exact hlast hmod
      rw [if_neg hother]
      rw [List.getElem?_append_left (by omega)] at hi
      exact h.bytes i byte hi

/-- The byte that is taken is the first of those stored. -/
theorem Holds.take {byte : ℕ} (h : Holds s (byte :: pending)) (hs : s.length < 2^32) :
    s.buffer s.readIndex = byte ∧ Holds s.take pending := by
  have hroom := h.room
  rw [List.length_cons] at hroom
  have hleft : (s.left+1)%2^32 = s.left+1 := by omega
  refine ⟨?_, ?_, Nat.mod_lt _ (by omega), ?_, fun i b hi => ?_⟩
  · have hb := h.bytes 0 byte rfl
    rwa [Nat.add_zero, Nat.mod_eq_of_lt h.start] at hb
  · change (s.left+1)%2^32+pending.length = s.length
    rw [hleft]
    omega
  · change s.writeIndex = ((s.readIndex+1)%s.length+pending.length)%s.length
    rw [h.stop, List.length_cons, Nat.mod_add_mod]
    congr 1
    omega
  · change s.buffer (((s.readIndex+1)%s.length+i)%s.length) = b
    have hb := h.bytes (i+1) b hi
    rw [Nat.mod_add_mod, Nat.add_assoc, Nat.add_comm 1 i]
    exact hb

/-- Only the buffer and its indices matter. -/
theorem Holds.congr {s' : Ring} (h : Holds s pending) (hb : s'.buffer = s.buffer)
    (hn : s'.length = s.length) (hl : s'.left = s.left) (hr : s'.readIndex = s.readIndex)
    (hw : s'.writeIndex = s.writeIndex) : Holds s' pending := by
  refine ⟨?_, ?_, ?_, ?_⟩
  · rw [hl, hn]
    exact h.room
  · rw [hr, hn]
    exact h.start
  · rw [hw, hr, hn]
    exact h.stop
  · rw [hb, hr, hn]
    exact h.bytes

end Bytes

/-! ## The places -/

/-- The process waits for its first unit of the semaphore. -/
def Waits : Kind → Place → Prop
  | .item => Reads
  | .space => Writes

/-- The process has the lock. -/
def Locked : Place → Prop
  | .readStuck _ | .writeStuck _ | .readByte _ | .readItem _ | .writeByte _ | .writeSpace _ => True
  | _ => False

/-- The bytes that `put_data` has still to store. -/
def unwritten : Place → List ℕ
  | .writeByte data | .writeSpace data | .writeStuck data => data
  | _ => []

/-- A byte is stored whose unit of space was not taken yet. -/
def early : Place → ℕ
  | .writeSpace _ | .writeStuck _ => 1
  | _ => 0

def earlies (s : Ring) : ℕ := ∑ q ∈ Finset.range s.procs, early (s.place q)

/-- A unit that is granted is claimed, and nothing else changes. -/
theorem granted_waits {k : Kind} {x : Place} (h : Waits k x) :
    claim k x.granted = claim k x+1 ∧ (∀ k', k' ≠ k → claim k' x.granted = claim k' x) ∧
      early x.granted = early x ∧ (∀ k', ¬ Waits k' x.granted) ∧ (∀ k', Waits k' x → k' = k) ∧
      ¬ Locked x ∧ ¬ Locked x.granted ∧ ¬ Stuck x.granted ∧ unwritten x.granted = [] := by
  cases k <;> cases x <;> try exact False.elim h
  all_goals
    refine ⟨rfl, fun k' hk => ?_, rfl, fun k' hk => ?_, fun k' hk => ?_, id, id, id, rfl⟩
    · cases k'
      · first | rfl | exact absurd rfl hk
      · first | rfl | exact absurd rfl hk
    · cases k' <;> exact hk
    · cases k'
      · first | rfl | exact False.elim hk
      · first | rfl | exact False.elim hk

theorem not_waits {x : Place} (h : ¬ Reads x ∧ ¬ Writes x) : ∀ k, ¬ Waits k x
  | .item => h.1
  | .space => h.2

theorem waits_claim {k : Kind} {x : Place} (h : Waits k x) : (∀ k', claim k' x = 0) ∧ ¬ Stuck x := by
  cases k <;> cases x <;> try exact False.elim h
  all_goals exact ⟨fun k' => by cases k' <;> rfl, id⟩

/-- The lists of the semaphores hold those that wait. -/
structure Queues (s : Ring) : Prop where
  waits : ∀ k p, p ∈ (s.sem k).waitList ↔ p < s.procs ∧ Waits k (s.place p)
  nodup : ∀ k, (s.sem k).waitList.Nodup
  idle : ∀ k, (s.sem k).waitList ≠ [] → (s.sem k).count = 0
  later : ∀ p, s.procs ≤ p → s.place p = .out

/-- A unit of the semaphore is on its way. -/
def due (o : Option Kind) (k : Kind) : ℕ := if o = some k then 1 else 0

/-- What the units of a semaphore stand for. -/
def amount (s : Ring) (pending : List ℕ) : Kind → ℕ
  | .item => pending.length
  | .space => s.left+earlies s

/-- The state, when a unit of the semaphore `o` is on its way. -/
structure Valid (s : Ring) (pending : List ℕ) (o : Option Kind) : Prop where
  queues : Queues s
  holds : Holds s pending
  small : s.length+1 < 2^32
  units : ∀ k, (s.sem k).count+claims k s+due o k = amount s pending k
  lock : ∀ p, s.lock = some p ↔ Locked (s.place p)
  free : ∀ p, ¬ Stuck (s.place p)
  fits : ∀ p, (unwritten (s.place p)).length ≤ s.left

section Places

variable {s : Ring} {pending : List ℕ} {p q i j : ℕ} {k : Kind} {x : Place}

theorem go_same : (s.go p x).place p = x := Function.update_self ..

theorem go_other (h : q ≠ p) : (s.go p x).place q = s.place q := Function.update_of_ne h ..

theorem claims_go (hp : p < s.procs) :
    claims k (s.go p x)+claim k (s.place p) = claims k s+claim k x :=
  sum_update hp (claim k) s.place x

theorem earlies_go (hp : p < s.procs) : earlies (s.go p x)+early (s.place p) = earlies s+early x :=
  sum_update hp early s.place x

theorem Queues.go (h : Queues s) (hp : p < s.procs) (hb : ∀ k, ¬ Waits k (s.place p))
    (hx : ∀ k, ¬ Waits k x) : Queues (s.go p x) := by
  refine ⟨fun k q => ?_, h.nodup, h.idle, fun q hq => ?_⟩
  · refine (h.waits k q).trans (and_congr_right fun _ => ?_)
    by_cases hqp : q = p
    · rw [hqp, go_same]
      exact ⟨fun hw => absurd hw (hb k), fun hw => absurd hw (hx k)⟩
    · rw [go_other hqp]
  · rw [go_other (by change s.procs ≤ q at hq; omega)]
    exact h.later q hq

theorem Queues.running (h : Queues s) (hx : s.place p ≠ .out) : p < s.procs := by
  by_contra hp
  exact hx (h.later p (by omega))

/-! ## The semaphores -/

theorem up_frame (s : Ring) (k : Kind) :
    ∃ m l, s.up k = { s with sem := m, place := l } := by
  rw [Ring.up]
  split <;> exact ⟨_, _, rfl⟩

/-- A unit goes to the first that waits, or to the count. -/
theorem up_cases (h : Queues s) (hc : (s.sem k).count+1 < 2^32) :
    ((s.sem k).waitList = [] ∧ (s.up k).place = s.place ∧
      (s.up k).sem = Function.update s.sem k ⟨(s.sem k).count+1, []⟩) ∨
    ∃ q rest, (s.sem k).waitList = q :: rest ∧ q < s.procs ∧ Waits k (s.place q) ∧
      (s.up k).place = Function.update s.place q (s.place q).granted ∧
      (s.up k).sem = Function.update s.sem k ⟨(s.sem k).count, rest⟩ := by
  rw [Ring.up]
  cases hl : (s.sem k).waitList with
  | nil =>
    refine .inl ⟨rfl, rfl, ?_⟩
    simp only [Nat.mod_eq_of_lt hc]
    rw [← hl]
  | cons q rest =>
    have ⟨hq, hw⟩ := (h.waits k q).mp (by rw [hl]; exact List.mem_cons_self)
    exact .inr ⟨q, rest, rfl, hq, hw, rfl, rfl⟩

theorem Queues.up (h : Queues s) (hc : (s.sem k).count+1 < 2^32) : Queues (s.up k) := by
  have ⟨m, l, hup⟩ := up_frame s k
  have hprocs : (s.up k).procs = s.procs := by rw [hup]
  rcases up_cases h hc with ⟨hnil, hplace, hsem⟩ | ⟨q, rest, hlist, hq, hw, hplace, hsem⟩
  · have hk : ∀ k', ((s.up k).sem k').waitList = (s.sem k').waitList := by
      intro k'
      rw [hsem, Function.update_apply]
      split
      · rename_i he
        rw [he, hnil]
      · rfl
    refine ⟨fun k' q => ?_, fun k' => ?_, fun k' hne => ?_, fun q hq => ?_⟩
    · rw [hk, hprocs, hplace]
      exact h.waits k' q
    · rw [hk]
      exact h.nodup k'
    · rw [hk] at hne
      have hkk : k' ≠ k := fun he => hne (he ▸ hnil)
      rw [hsem, Function.update_of_ne hkk]
      exact h.idle k' hne
    · rw [hplace]
      exact h.later q (hprocs ▸ hq)
  · have ⟨_, _, _, hgone, honly, _⟩ := granted_waits hw
    have hnodup := h.nodup k
    rw [hlist] at hnodup
    refine ⟨fun k' r => ?_, fun k' => ?_, fun k' hne => ?_, fun r hr => ?_⟩
    · rw [hprocs, hplace, hsem, Function.update_apply, Function.update_apply]
      by_cases hr : r = q
      · rw [if_pos hr]
        refine ⟨fun hmem => ?_, fun hw' => absurd hw'.2 (hgone k')⟩
        split at hmem
        · exact absurd (hr ▸ hmem) (List.nodup_cons.mp hnodup).1
        · rename_i hkk
          exact absurd (honly k' (hr ▸ ((h.waits k' r).mp hmem).2)) hkk
      · rw [if_neg hr, ← h.waits k' r]
        split
        · rename_i hkk
          rw [hkk, hlist, List.mem_cons]
          exact ⟨fun hm => .inr hm, fun hm => hm.resolve_left hr⟩
        · rfl
    · rw [hsem, Function.update_apply]
      split
      · exact (List.nodup_cons.mp hnodup).2
      · exact h.nodup k'
    · rw [hsem, Function.update_apply] at hne ⊢
      split
      · exact h.idle k (by rw [hlist]; exact List.cons_ne_nil _ _)
      · rename_i hkk
        rw [if_neg hkk] at hne
        exact h.idle k' hne
    · have hrq : r ≠ q := by
        rw [hprocs] at hr
        omega
      rw [hplace, Function.update_of_ne hrq]
      exact h.later r (hprocs ▸ hr)

/-- `up` adds a unit, and changes no place but that of one that waits. -/
theorem up_units (h : Queues s) (hc : (s.sem k).count+1 < 2^32) :
    ((s.up k).sem k).count+claims k (s.up k) = (s.sem k).count+claims k s+1 ∧
      (∀ k', k' ≠ k → ((s.up k).sem k').count+claims k' (s.up k) = (s.sem k').count+claims k' s) ∧
      earlies (s.up k) = earlies s ∧
      ∀ q, (s.up k).place q = s.place q ∨
        Waits k (s.place q) ∧ (s.up k).place q = (s.place q).granted := by
  have ⟨m, l, hup⟩ := up_frame s k
  have hprocs : (s.up k).procs = s.procs := by rw [hup]
  rcases up_cases h hc with ⟨hnil, hplace, hsem⟩ | ⟨q, rest, hlist, hq, hw, hplace, hsem⟩
  · have hclaims : ∀ k', claims k' (s.up k) = claims k' s := fun k' => by
      rw [claims, claims, hprocs, hplace]
    refine ⟨?_, fun k' hk => ?_, ?_, fun q => .inl (by rw [hplace])⟩
    · rw [hclaims, hsem, Function.update_self]
      simp only
      omega
    · rw [hclaims, hsem, Function.update_of_ne hk]
    · rw [earlies, earlies, hprocs, hplace]
  · have ⟨hclaim, hother, hearly, _⟩ := granted_waits hw
    have hclaims : ∀ k', claims k' (s.up k)+claim k' (s.place q) =
        claims k' s+claim k' (s.place q).granted := by
      intro k'
      rw [claims, claims, hprocs, hplace]
      exact sum_update hq (claim k') s.place _
    refine ⟨?_, fun k' hk => ?_, ?_, fun r => ?_⟩
    · have hsum := hclaims k
      rw [hsem, Function.update_self]
      simp only
      omega
    · have hsum := hclaims k'
      have hsame := hother k' hk
      rw [hsem, Function.update_of_ne hk]
      omega
    · have hsum : earlies (s.up k)+early (s.place q) = earlies s+early (s.place q).granted := by
        rw [earlies, earlies, hprocs, hplace]
        exact sum_update hq early s.place _
      omega
    · rw [hplace, Function.update_apply]
      split
      · rename_i hr
        rw [hr]
        exact .inr ⟨hw, rfl⟩
      · exact .inl rfl

/-- `down` finds a unit, or the process waits. -/
theorem down_cases (s : Ring) (k : Kind) (p : ℕ) (wait : Place) :
    (0 < (s.sem k).count ∧ s.down k p wait =
      { s with sem := Function.update s.sem k ⟨(s.sem k).count-1, (s.sem k).waitList⟩ }.go p wait.granted) ∨
    ((s.sem k).count = 0 ∧ s.down k p wait =
      { s with sem := Function.update s.sem k ⟨0, (s.sem k).waitList ++ [p]⟩ }.go p wait) := by
  rw [Ring.down]
  split
  · rename_i hpos
    exact .inl ⟨hpos, rfl⟩
  · rename_i hzero
    refine .inr ⟨by omega, ?_⟩
    have hz : (s.sem k).count = 0 := by omega
    simp only [hz]

theorem queues_count {m : ℕ} (h : Queues s) (hpos : 0 < (s.sem k).count) :
    Queues { s with sem := Function.update s.sem k ⟨m, (s.sem k).waitList⟩ } := by
  have hlist : ∀ k', (Function.update s.sem k ⟨m, (s.sem k).waitList⟩ k').waitList = (s.sem k').waitList := by
    intro k'
    rw [Function.update_apply]
    split
    · rename_i he
      rw [he]
    · rfl
  refine ⟨fun k' q => ?_, fun k' => ?_, fun k' hne => ?_, h.later⟩
  · simp only [hlist]
    exact h.waits k' q
  · simp only [hlist]
    exact h.nodup k'
  · simp only [hlist] at hne
    have hk : k' ≠ k := by
      intro he
      rw [he] at hne
      have hz := h.idle k hne
      omega
    simp only [Function.update_of_ne hk]
    exact h.idle k' hne

theorem queues_wait {wait : Place} (h : Queues s) (hp : p < s.procs)
    (hb : ∀ k, ¬ Waits k (s.place p)) (hw : Waits k wait) :
    Queues ({ s with sem := Function.update s.sem k ⟨0, (s.sem k).waitList ++ [p]⟩ }.go p wait) := by
  have ⟨_, _, _, _, honly, _⟩ := granted_waits hw
  have hnot : ∀ k', p ∉ (s.sem k').waitList := fun k' hm => hb k' ((h.waits k' p).mp hm).2
  refine ⟨fun k' q => ?_, fun k' => ?_, fun k' hne => ?_, fun q hq => ?_⟩
  · change q ∈ (Function.update s.sem k ⟨0, (s.sem k).waitList ++ [p]⟩ k').waitList ↔
      q < s.procs ∧ Waits k' (Function.update s.place p wait q)
    rw [Function.update_apply, Function.update_apply]
    by_cases hqp : q = p
    · rw [if_pos hqp]
      split
      · rename_i hk
        rw [hk, hqp]
        exact ⟨fun _ => ⟨hp, hw⟩, fun _ => List.mem_append_right _ (List.mem_singleton_self p)⟩
      · rename_i hk
        rw [hqp]
        exact ⟨fun hm => absurd hm (hnot k'), fun hm => absurd (honly k' hm.2) hk⟩
    · rw [if_neg hqp, ← h.waits k' q]
      split
      · rename_i hk
        rw [hk, List.mem_append, List.mem_singleton]
        exact ⟨fun hm => hm.resolve_right hqp, fun hm => .inl hm⟩
      · rfl
  · change (Function.update s.sem k ⟨0, (s.sem k).waitList ++ [p]⟩ k').waitList.Nodup
    rw [Function.update_apply]
    split
    · refine List.nodup_append.mpr ⟨h.nodup k, List.nodup_singleton p, ?_⟩
      intro a ha b hb' he
      rw [he, List.mem_singleton.mp hb'] at ha
      exact hnot k ha
    · exact h.nodup k'
  · change (Function.update s.sem k ⟨0, (s.sem k).waitList ++ [p]⟩ k').count = 0
    change (Function.update s.sem k ⟨0, (s.sem k).waitList ++ [p]⟩ k').waitList ≠ [] at hne
    rw [Function.update_apply] at hne ⊢
    split
    · rfl
    · rename_i hk
      rw [if_neg hk] at hne
      exact h.idle k' hne
  · rw [go_other (by change s.procs ≤ q at hq; omega)]
    exact h.later q hq

/-! ## The parts of a step -/

variable {o o' : Option Kind}

theorem unlocked_early {x : Place} (h : ¬ Locked x) : early x = 0 ∧ unwritten x = [] := by
  cases x <;> first | exact ⟨rfl, rfl⟩ | exact absurd trivial h

theorem early_le (x : Place) : early x ≤ 1 := by
  cases x <;> first | exact Nat.zero_le 1 | exact Nat.le_refl 1

theorem earlies_free (h : Valid s pending o) (hl : s.lock = none) : earlies s = 0 := by
  refine Finset.sum_eq_zero fun q _ => (unlocked_early fun hq => ?_).1
  rw [← h.lock q, hl] at hq
  cases hq

theorem earlies_held (h : Valid s pending o) (hl : Locked (s.place p)) :
    earlies s = early (s.place p) := by
  have hlock := (h.lock p).mpr hl
  refine Finset.sum_eq_single p (fun q _ hq => (unlocked_early fun hq' => hq ?_).1) fun hp => ?_
  · have hlock' := (h.lock q).mpr hq'
    rw [hlock] at hlock'
    exact (Option.some.inj hlock').symm
  · rw [h.queues.later p (by simpa using hp)]
    rfl

theorem earlies_le (h : Valid s pending o) : earlies s ≤ 1 := by
  cases hl : s.lock with
  | none =>
    rw [earlies_free h hl]
    exact Nat.zero_le 1
  | some q =>
    rw [earlies_held h ((h.lock q).mp hl)]
    exact early_le _

/-- A process goes on to `x`, and the ring changes. -/
theorem Valid.go {r : Ring} {pending' : List ℕ} (h : Valid s pending o) (hp : p < s.procs)
    (hsem : r.sem = s.sem) (hplace : r.place = s.place) (hprocs : r.procs = s.procs)
    (hlength : r.length = s.length) (hb : ∀ k, ¬ Waits k (s.place p)) (hx : ∀ k, ¬ Waits k x)
    (hstuck : ¬ Stuck x) (hh : Holds r pending')
    (hitems : pending.length+claim .item x+due o' .item =
      pending'.length+claim .item (s.place p)+due o .item)
    (hspaces : s.left+claim .space x+early (s.place p)+due o' .space =
      r.left+claim .space (s.place p)+early x+due o .space)
    (hlock : ∀ q, r.lock = some q ↔ Locked ((r.go p x).place q))
    (hfits : (unwritten x).length ≤ r.left)
    (hothers : ∀ q, q ≠ p → (unwritten (s.place q)).length ≤ r.left) :
    Valid (r.go p x) pending' o' := by
  have hq : Queues r := by
    refine ⟨fun k q => ?_, fun k => ?_, fun k => ?_, fun q hq => ?_⟩
    · rw [hsem, hplace, hprocs]
      exact h.queues.waits k q
    · rw [hsem]
      exact h.queues.nodup k
    · rw [hsem]
      exact h.queues.idle k
    · rw [hplace]
      exact h.queues.later q (hprocs ▸ hq)
  have hpr : p < r.procs := by rw [hprocs]; exact hp
  have hother : ∀ q, q ≠ p → (r.go p x).place q = s.place q := fun q hqp => by
    rw [go_other hqp, hplace]
  refine ⟨hq.go hpr (by rw [hplace]; exact hb) hx, hh.congr rfl rfl rfl rfl rfl, ?_, ?_, hlock, ?_, ?_⟩
  · change r.length+1 < 2^32
    rw [hlength]
    exact h.small
  · intro k
    have hunits := h.units k
    have hclaims := claims_go (s := r) (k := k) (x := x) hpr
    have hearlies := earlies_go (s := r) (x := x) hpr
    have hsame : claims k r = claims k s := by rw [claims, claims, hprocs, hplace]
    have hsame' : earlies r = earlies s := by rw [earlies, earlies, hprocs, hplace]
    rw [hsame, hplace] at hclaims
    rw [hsame', hplace] at hearlies
    change (r.sem k).count+claims k (r.go p x)+due o' k = amount (r.go p x) pending' k
    rw [hsem]
    cases k with
    | item =>
      simp only [amount] at hunits ⊢
      omega
    | space =>
      simp only [amount] at hunits ⊢
      change _ = r.left+earlies (r.go p x)
      omega
  · intro q
    by_cases hqp : q = p
    · rw [hqp, go_same]
      exact hstuck
    · rw [hother q hqp]
      exact h.free q
  · intro q
    by_cases hqp : q = p
    · rw [hqp, go_same]
      exact hfits
    · rw [hother q hqp]
      exact hothers q hqp

/-- The unit on its way is passed on. -/
theorem Valid.up (h : Valid s pending (some k)) : Valid (s.up k) pending none := by
  have hunits := h.units k
  have hroom := h.holds.room
  have hsmall := h.small
  have hle := earlies_le h
  have hdue : due (some k) k = 1 := if_pos rfl
  have hcount : (s.sem k).count+1 < 2^32 := by
    cases k with
    | item =>
      simp only [amount] at hunits
      omega
    | space =>
      simp only [amount] at hunits
      omega
  have ⟨hup, hother, hearlies, hplace⟩ := up_units h.queues hcount
  have ⟨m, l, hframe⟩ := up_frame s k
  have hleft : (s.up k).left = s.left := by rw [hframe]
  have hlock : (s.up k).lock = s.lock := by rw [hframe]
  refine ⟨h.queues.up hcount, ?_, by rw [hframe]; exact hsmall, ?_, ?_, ?_, ?_⟩
  · rw [hframe]
    exact h.holds.congr rfl rfl rfl rfl rfl
  · intro k'
    have hamount : amount (s.up k) pending k' = amount s pending k' := by
      cases k' with
      | item => rfl
      | space => simp only [amount, hleft, hearlies]
    have hunits' := h.units k'
    rw [hamount]
    by_cases hk : k' = k
    · rw [hk] at hunits' ⊢
      change _+0 = _
      omega
    · have hdue' : due (some k) k' = 0 := if_neg fun he => hk (Option.some.inj he).symm
      have hsame := hother k' hk
      change _+0 = _
      omega
  · intro q
    rw [hlock, h.lock q]
    rcases hplace q with he | ⟨hw, he⟩ <;> rw [he]
    have ⟨_, _, _, _, _, hb, ha, _⟩ := granted_waits hw
    exact ⟨fun hl => absurd hl hb, fun hl => absurd hl ha⟩
  · intro q
    rcases hplace q with he | ⟨hw, he⟩ <;> rw [he]
    · exact h.free q
    · exact (granted_waits hw).2.2.2.2.2.2.2.1
  · intro q
    rw [hleft]
    rcases hplace q with he | ⟨hw, he⟩ <;> rw [he]
    · exact h.fits q
    · rw [(granted_waits hw).2.2.2.2.2.2.2.2]
      exact Nat.zero_le _

/-- A unit is taken from the count. -/
theorem Valid.spend (h : Valid s pending none) (hpos : 0 < (s.sem k).count) :
    Valid { s with sem := Function.update s.sem k ⟨(s.sem k).count-1, (s.sem k).waitList⟩ }
      pending (some k) := by
  refine ⟨queues_count h.queues hpos, h.holds.congr rfl rfl rfl rfl rfl, h.small, fun k' => ?_,
    h.lock, h.free, h.fits⟩
  have hunits : (s.sem k').count+claims k' s+0 = amount s pending k' := h.units k'
  change (Function.update s.sem k _ k').count+claims k' s+due (some k) k' = amount s pending k'
  by_cases hk : k' = k
  · rw [hk] at hunits ⊢
    rw [Function.update_self, due, if_pos rfl]
    simp only
    omega
  · rw [Function.update_of_ne hk, due, if_neg fun he => hk (Option.some.inj he).symm]
    exact hunits

/-- The first `down` of an operation. -/
theorem Valid.down {wait : Place} (h : Valid s pending none) (hp : p < s.procs)
    (hout : s.place p = .out) (hw : Waits k wait) : Valid (s.down k p wait) pending none := by
  have ⟨hone, hother, _, hgone, _, hearly, hlocked, hfree, hunwritten⟩ := granted_waits hw
  have ⟨hclaim, hstuck⟩ := waits_claim hw
  have hb : ∀ k, ¬ Waits k (s.place p) := by
    rw [hout]
    exact not_waits ⟨id, id⟩
  have hlockout : ∀ {r : Ring} {x : Place}, r.lock = s.lock → r.place = s.place → ¬ Locked x →
      ∀ q, r.lock = some q ↔ Locked ((r.go p x).place q) := by
    intro r x hl hr hx q
    rw [hl, h.lock q]
    by_cases hqp : q = p
    · rw [hqp, go_same, hout]
      exact ⟨fun hn => hn.elim, fun hn => absurd hn hx⟩
    · rw [go_other hqp, hr]
  rcases down_cases s k p wait with ⟨hpos, hd⟩ | ⟨hzero, hd⟩
  · rw [hd]
    have hspend := h.spend hpos
    have hout' : claim .item (s.place p) = 0 ∧ claim .space (s.place p) = 0 ∧ early (s.place p) = 0 := by
      rw [hout]
      exact ⟨rfl, rfl, rfl⟩
    have hgranted : ∀ k', claim k' wait.granted = due (some k) k' := by
      intro k'
      by_cases hk : k' = k
      · rw [hk, hone, hclaim, due, if_pos rfl]
      · rw [hother k' hk, hclaim, due, if_neg fun he => hk (Option.some.inj he).symm]
    refine hspend.go hp rfl rfl rfl rfl hb hgone hfree (hspend.holds) ?_ ?_ (hlockout rfl rfl hlocked) ?_
      fun q _ => h.fits q
    · have hg := hgranted .item
      change pending.length+claim .item wait.granted+0 = pending.length+claim .item (s.place p)+_
      omega
    · have hg := hgranted .space
      have he := (unlocked_early hlocked).1
      change s.left+claim .space wait.granted+early (s.place p)+0 =
        s.left+claim .space (s.place p)+early wait.granted+_
      omega
    · rw [hunwritten]
      exact Nat.zero_le _
  · rw [hd]
    have hq := queues_wait h.queues hp hb hw
    refine ⟨hq, h.holds.congr rfl rfl rfl rfl rfl, h.small, fun k' => ?_, hlockout (r := { s with
      sem := Function.update s.sem k ⟨0, (s.sem k).waitList ++ [p]⟩ }) rfl rfl hearly, fun q => ?_, fun q => ?_⟩
    · have hunits := h.units k'
      have hclaims := claims_go (s := s) (k := k') (x := wait) hp
      have hearlies := earlies_go (s := s) (x := wait) hp
      rw [hout, hclaim k'] at hclaims
      rw [hout, (unlocked_early hearly).1] at hearlies
      have hzero' : claim k' .out = 0 := by cases k' <;> rfl
      have hcount : (Function.update s.sem k ⟨0, (s.sem k).waitList ++ [p]⟩ k').count = (s.sem k').count := by
        rw [Function.update_apply]
        split
        · rename_i hk
          rw [hk, hzero]
        · rfl
      change (Function.update s.sem k ⟨0, (s.sem k).waitList ++ [p]⟩ k').count+claims k' (s.go p wait)+_ = _
      rw [hcount]
      have hearly' : early .out = 0 := rfl
      cases k' with
      | item =>
        simp only [amount] at hunits ⊢
        omega
      | space =>
        simp only [amount] at hunits ⊢
        change _ = s.left+earlies (s.go p wait)
        omega
    · by_cases hqp : q = p
      · rw [hqp, go_same]
        exact hstuck
      · rw [go_other hqp]
        exact h.free q
    · by_cases hqp : q = p
      · rw [hqp, go_same, (unlocked_early hearly).2]
        exact Nat.zero_le _
      · rw [go_other hqp]
        exact h.fits q

/-! ## Steps -/

theorem lock_keep {r : Ring} (h : Valid s pending o) (hl : r.lock = s.lock) (hr : r.place = s.place)
    (hx : Locked x ↔ Locked (s.place p)) : ∀ q, r.lock = some q ↔ Locked ((r.go p x).place q) := by
  intro q
  rw [hl, h.lock q]
  by_cases hqp : q = p
  · rw [hqp, go_same, hx]
  · rw [go_other hqp, hr]

theorem lock_take {r : Ring} (h : Valid s pending o) (hn : s.lock = none) (hl : r.lock = some p)
    (hr : r.place = s.place) (hx : Locked x) : ∀ q, r.lock = some q ↔ Locked ((r.go p x).place q) := by
  intro q
  rw [hl]
  by_cases hqp : q = p
  · rw [hqp, go_same]
    exact ⟨fun _ => hx, fun _ => rfl⟩
  · rw [go_other hqp, hr, ← h.lock q, hn]
    exact ⟨fun he => absurd (Option.some.inj he).symm hqp, fun he => by cases he⟩

theorem lock_drop {r : Ring} (h : Valid s pending o) (hp : Locked (s.place p)) (hl : r.lock = none)
    (hr : r.place = s.place) (hx : ¬ Locked x) : ∀ q, r.lock = some q ↔ Locked ((r.go p x).place q) := by
  intro q
  rw [hl]
  refine ⟨fun he => (by cases he), fun hq => ?_⟩
  by_cases hqp : q = p
  · rw [hqp, go_same] at hq
    exact absurd hq hx
  · rw [go_other hqp, hr, ← h.lock q, (h.lock p).mpr hp] at hq
    exact absurd (Option.some.inj hq).symm hqp

/-- Nobody else is about to store several bytes. -/
theorem others_free {n : ℕ} (h : Valid s pending o) (hl : s.lock = none ∨ Locked (s.place p)) :
    ∀ q, q ≠ p → (unwritten (s.place q)).length ≤ n := by
  intro q hq
  have hfree : ¬ Locked (s.place q) := by
    intro hlq
    have hq' := (h.lock q).mpr hlq
    rcases hl with hl | hl
    · rw [hl] at hq'
      cases hq'
    · rw [(h.lock p).mpr hl] at hq'
      exact hq (Option.some.inj hq').symm
  rw [(unlocked_early hfree).2]
  exact Nat.zero_le n

theorem Valid.length (h : Valid s pending o) : s.length < 2^32 := by
  have hs := h.small
  omega

/-- A claim on an item is one on a byte that is stored. -/
theorem claimed (h : Valid s pending none) (hp : p < s.procs) : claim k (s.place p) ≤ amount s pending k := by
  have hunits := h.units k
  have hle : claim k (s.place p) ≤ claims k s :=
    Finset.single_le_sum (f := fun q => claim k (s.place q)) (fun _ _ => Nat.zero_le _) (Finset.mem_range.mpr hp)
  omega

/-- The bytes that are taken are the first of those that were stored. -/
theorem valid_step {s' : Ring} {e : Event} {out ins : List ℕ} (h : Valid s pending none)
    (ha : Allowed s e) (hs : Step s e out ins s') :
    ∃ pending', pending ++ ins = out ++ pending' ∧ Valid s' pending' none := by
  have hrun : ∀ {p x}, s.place p = x → x ≠ .out → p < s.procs :=
    fun hp hx => h.queues.running fun he => hx (hp.symm.trans he)
  cases hs with
  | getChar hp hout => exact ⟨pending, by simp, h.down hp hout trivial⟩
  | putChar hp hout => exact ⟨pending, by simp, h.down hp hout trivial⟩
  | getData hp hout => exact ⟨pending, by simp, h.down hp hout trivial⟩
  | @getByte p hp hl hc =>
    have hpr := hrun hp (by decide)
    have hclaim := claimed (k := .item) h hpr
    rw [hp] at hclaim
    cases pending with
    | nil => exact absurd hclaim (Nat.not_succ_le_zero 0)
    | cons byte rest =>
      have ⟨hb, hh⟩ := h.holds.take h.length
      have hroom := h.holds.room
      have hroom' := hh.room
      change s.take.left+rest.length = s.length at hroom'
      rw [List.length_cons] at hroom
      refine ⟨rest, by simp [hb], h.go hpr rfl rfl rfl rfl ?_ ?_ id hh ?_ ?_ ?_ (Nat.zero_le _) ?_⟩
      · rw [hp]
        exact not_waits ⟨id, id⟩
      · exact not_waits ⟨id, id⟩
      · rw [hp]
        rfl
      · rw [hp]
        change s.left+1+0+0 = s.take.left+0+0+0
        omega
      · exact lock_keep h rfl rfl (by rw [hp]; exact Iff.rfl)
      · exact others_free h (.inl hl)
  | getNone hp hl hc =>
    rw [Allowed, hp] at ha
    exact absurd (ha.symm.trans hc) (by decide)
  | @getUp p hp =>
    have hpr := hrun hp (by decide)
    have hv : Valid (s.go p .out) pending (some .space) := by
      refine h.go hpr rfl rfl rfl rfl ?_ ?_ id h.holds ?_ ?_ ?_ (Nat.zero_le _) fun q _ => h.fits q
      · rw [hp]
        exact not_waits ⟨id, id⟩
      · exact not_waits ⟨id, id⟩
      · rw [hp]
        rfl
      · rw [hp]
        rfl
      · exact lock_keep h rfl rfl (by rw [hp]; exact Iff.rfl)
    exact ⟨pending, by simp, hv.up⟩
  | @putByte p ch hp hl hc =>
    have hpr := hrun hp (by simp)
    have hclaim := claimed (k := .space) h hpr
    rw [hp] at hclaim
    change 1 ≤ s.left+earlies s at hclaim
    rw [earlies_free h hl] at hclaim
    have hh := h.holds.put ch h.length hclaim
    have hroom := h.holds.room
    have hroom' := hh.room
    change (s.put ch).left+(pending ++ [ch]).length = s.length at hroom'
    rw [List.length_append, List.length_singleton] at hroom'
    refine ⟨pending ++ [ch], rfl, h.go hpr rfl rfl rfl rfl ?_ ?_ id hh ?_ ?_ ?_ (Nat.zero_le _) ?_⟩
    · rw [hp]
      exact not_waits ⟨id, id⟩
    · exact not_waits ⟨id, id⟩
    · rw [hp, List.length_append]
      rfl
    · rw [hp]
      change s.left+0+0+0 = (s.put ch).left+1+0+0
      omega
    · exact lock_keep h rfl rfl (by rw [hp]; exact Iff.rfl)
    · exact others_free h (.inl hl)
  | putNone hp hl hc =>
    rw [Allowed, hp] at ha
    exact absurd (ha.symm.trans hc) (by decide)
  | @putUp p hp =>
    have hpr := hrun hp (by decide)
    have hv : Valid (s.go p .out) pending (some .item) := by
      refine h.go hpr rfl rfl rfl rfl ?_ ?_ id h.holds ?_ ?_ ?_ (Nat.zero_le _) fun q _ => h.fits q
      · rw [hp]
        exact not_waits ⟨id, id⟩
      · exact not_waits ⟨id, id⟩
      · rw [hp]
        rfl
      · rw [hp]
        rfl
      · exact lock_keep h rfl rfl (by rw [hp]; exact Iff.rfl)
    exact ⟨pending, by simp, hv.up⟩
  | @readLock p max hp hl hc =>
    have hpr := hrun hp (by simp)
    refine ⟨pending, by simp, h.go hpr rfl rfl rfl rfl ?_ ?_ id (h.holds.congr rfl rfl rfl rfl rfl) ?_ ?_ ?_
      (Nat.zero_le _) fun q _ => h.fits q⟩
    · rw [hp]
      exact not_waits ⟨id, id⟩
    · exact not_waits ⟨id, id⟩
    · rw [hp]
      rfl
    · rw [hp]
      rfl
    · exact lock_take h hl rfl rfl trivial
  | readNone hp hl hc =>
    rw [Allowed, hp] at ha
    exact absurd (ha.symm.trans hc) (by decide)
  | @readByte p n hp =>
    have hpr := hrun hp (by simp)
    have hclaim := claimed (k := .item) h hpr
    rw [hp] at hclaim
    have hlocked : Locked (s.place p) := by
      rw [hp]
      trivial
    cases pending with
    | nil => exact absurd hclaim (Nat.not_succ_le_zero 0)
    | cons byte rest =>
      have ⟨hb, hh⟩ := h.holds.take h.length
      have hroom := h.holds.room
      have hroom' := hh.room
      change s.take.left+rest.length = s.length at hroom'
      rw [List.length_cons] at hroom
      have hv : Valid (s.take.go p (.readItem n)) rest (some .space) := by
        refine h.go hpr rfl rfl rfl rfl ?_ ?_ id hh ?_ ?_ ?_ (Nat.zero_le _) ?_
        · rw [hp]
          exact not_waits ⟨id, id⟩
        · exact not_waits ⟨id, id⟩
        · rw [hp]
          rfl
        · rw [hp]
          change s.left+0+0+1 = s.take.left+0+0+0
          omega
        · exact lock_keep h rfl rfl (by rw [hp]; exact Iff.rfl)
        · exact others_free h (.inr hlocked)
      exact ⟨rest, by simp [hb], hv.up⟩
  | readDone hp =>
    rw [Allowed, hp] at ha
    exact absurd rfl ha
  | @readItem p n hp hne =>
    rw [Allowed, hp] at ha
    have hpr := hrun hp (by simp)
    have hclaims := ha hne
    have hunits := h.units .item
    have hroom := h.holds.room
    simp only [due, amount] at hunits
    rw [if_neg (by simp)] at hunits
    rcases down_cases s .item p (.readStuck n) with ⟨hpos, hd⟩ | ⟨hzero, _⟩
    · rw [hd]
      have hspend := h.spend hpos
      refine ⟨pending, by simp, hspend.go hpr rfl rfl rfl rfl ?_ ?_ id hspend.holds ?_ ?_ ?_
        (Nat.zero_le _) fun q _ => h.fits q⟩
      · rw [hp]
        exact not_waits ⟨id, id⟩
      · exact not_waits ⟨id, id⟩
      · change pending.length+1+0 = pending.length+claim .item (s.place p)+1
        rw [hp]
        rfl
      · change s.left+0+early (s.place p)+0 = s.left+claim .space (s.place p)+0+0
        rw [hp]
        rfl
      · exact lock_keep hspend rfl rfl (by rw [hp]; exact Iff.rfl)
    · omega
  | @readBreak p n hp he =>
    have hpr := hrun hp (by simp)
    refine ⟨pending, by simp, h.go hpr rfl rfl rfl rfl ?_ ?_ id (h.holds.congr rfl rfl rfl rfl rfl) ?_ ?_ ?_
      (Nat.zero_le _) fun q _ => h.fits q⟩
    · rw [hp]
      exact not_waits ⟨id, id⟩
    · exact not_waits ⟨id, id⟩
    · rw [hp]
      rfl
    · rw [hp]
      rfl
    · exact lock_drop h (by rw [hp]; trivial) rfl rfl id
  | putNothing hp hout hl hno => exact ⟨pending, by simp, h⟩
  | @putData p data hpr hout hl hfit hc =>
    refine ⟨pending, by simp, h.go hpr rfl rfl rfl rfl ?_ ?_ id (h.holds.congr rfl rfl rfl rfl rfl) ?_ ?_ ?_
      hfit fun q _ => h.fits q⟩
    · rw [hout]
      exact not_waits ⟨id, id⟩
    · exact not_waits ⟨id, id⟩
    · rw [hout]
      rfl
    · rw [hout]
      rfl
    · exact lock_take h hl rfl rfl trivial
  | @writeByte p ch rest hp =>
    have hpr := hrun hp (by simp)
    have hlocked : Locked (s.place p) := by
      rw [hp]
      trivial
    have hfits := h.fits p
    rw [hp] at hfits
    change rest.length+1 ≤ s.left at hfits
    have hh := h.holds.put ch h.length (by omega)
    have hroom := h.holds.room
    have hroom' := hh.room
    change (s.put ch).left+(pending ++ [ch]).length = s.length at hroom'
    rw [List.length_append, List.length_singleton] at hroom'
    have hv : Valid ((s.put ch).go p (.writeSpace rest)) (pending ++ [ch]) (some .item) := by
      refine h.go hpr rfl rfl rfl rfl ?_ ?_ id hh ?_ ?_ ?_ ?_ ?_
      · rw [hp]
        exact not_waits ⟨id, id⟩
      · exact not_waits ⟨id, id⟩
      · rw [hp, List.length_append]
        rfl
      · rw [hp]
        change s.left+0+0+0 = (s.put ch).left+0+1+0
        omega
      · exact lock_keep h rfl rfl (by rw [hp]; exact Iff.rfl)
      · change rest.length ≤ (s.put ch).left
        omega
      · exact others_free h (.inr hlocked)
    exact ⟨pending ++ [ch], rfl, hv.up⟩
  | @writeDone p hp =>
    have hpr := hrun hp (by simp)
    refine ⟨pending, by simp, h.go hpr rfl rfl rfl rfl ?_ ?_ id (h.holds.congr rfl rfl rfl rfl rfl) ?_ ?_ ?_
      (Nat.zero_le _) fun q _ => h.fits q⟩
    · rw [hp]
      exact not_waits ⟨id, id⟩
    · exact not_waits ⟨id, id⟩
    · rw [hp]
      rfl
    · rw [hp]
      rfl
    · exact lock_drop h (by rw [hp]; trivial) rfl rfl id
  | @writeSpace p rest hp =>
    rw [Allowed, hp] at ha
    change claims .space s ≤ s.left at ha
    have hpr := hrun hp (by simp)
    have hlocked : Locked (s.place p) := by
      rw [hp]
      trivial
    have hearly := earlies_held h hlocked
    have hunits := h.units .space
    simp only [due, amount] at hunits
    rw [hp] at hearly
    rw [if_neg (by simp), hearly] at hunits
    change _+0 = s.left+1 at hunits
    have hfits := h.fits p
    rcases down_cases s .space p (.writeStuck rest) with ⟨hpos, hd⟩ | ⟨hzero, _⟩
    · rw [hd]
      have hspend := h.spend hpos
      refine ⟨pending, by simp, hspend.go hpr rfl rfl rfl rfl ?_ ?_ id hspend.holds ?_ ?_ ?_ ?_
        fun q _ => h.fits q⟩
      · rw [hp]
        exact not_waits ⟨id, id⟩
      · exact not_waits ⟨id, id⟩
      · change pending.length+0+0 = pending.length+claim .item (s.place p)+0
        rw [hp]
        rfl
      · change s.left+0+early (s.place p)+0 = s.left+claim .space (s.place p)+0+1
        rw [hp]
        rfl
      · exact lock_keep hspend rfl rfl (by rw [hp]; exact Iff.rfl)
      · rw [hp] at hfits
        exact hfits
    · omega
  | disconnect =>
    exact ⟨pending, by simp, ⟨h.queues.waits, h.queues.nodup, h.queues.idle, h.queues.later⟩,
      h.holds.congr rfl rfl rfl rfl rfl, h.small, h.units, h.lock, h.free, h.fits⟩

end Places

/-! ## Runs -/

theorem valid_start {s : Ring} (h : Start s) : Valid s [] none := by
  have hlength : 0 < s.length ∧ s.length+1 < 2^32 := by
    have ⟨order, ho⟩ := h.length
    have hsmall := h.small
    have hpos := Nat.two_pow_pos order
    rw [ho, pageSize] at hsmall ⊢
    omega
  have hclaims : ∀ k, claims k s = 0 := fun k => Finset.sum_eq_zero fun q _ => by
    rw [h.place q]
    cases k <;> rfl
  have hearlies : earlies s = 0 := Finset.sum_eq_zero fun q _ => by
    rw [h.place q]
    rfl
  have hsem : ∀ k, (s.sem k).waitList = [] := by
    intro k
    cases k with
    | item => rw [h.item]
    | space => rw [h.space]
  have hout : ∀ {Q : Place → Prop}, ¬ Q .out → ∀ q, ¬ Q (s.place q) := fun hQ q => by
    rw [h.place q]
    exact hQ
  refine ⟨⟨fun k p => ?_, fun k => ?_, fun k hne => absurd (hsem k) hne, fun p _ => h.place p⟩,
    ⟨?_, ?_, ?_, fun i byte hi => ?_⟩, hlength.2, fun k => ?_, fun p => ?_, hout id, fun p => ?_⟩
  · rw [hsem k]
    exact ⟨fun hm => absurd hm List.not_mem_nil, fun hm => absurd hm.2 (hout (not_waits ⟨id, id⟩ k) p)⟩
  · rw [hsem k]
    exact List.nodup_nil
  · rw [h.left]
    rfl
  · rw [h.readIndex]
    exact hlength.1
  · rw [h.writeIndex, h.readIndex]
    exact (Nat.zero_mod s.length).symm
  · cases hi
  · rw [hclaims k]
    cases k with
    | item =>
      rw [h.item]
      rfl
    | space =>
      rw [h.space]
      simp only [amount, hearlies, h.left]
      rfl
  · rw [h.lock]
    exact ⟨fun he => (by cases he), fun hl => absurd hl (hout (Q := Locked) id p)⟩
  · rw [h.place p]
    exact Nat.zero_le _

theorem valid_run {s : Ring} {returned stored : List ℕ} (h : Run Allowed s returned stored) :
    ∃ pending, stored = returned ++ pending ∧ Valid s pending none := by
  induction h with
  | start hs => exact ⟨[], rfl, valid_start hs⟩
  | @step s s' e returned stored out ins _ ha hs ih =>
    have ⟨pending, he, hv⟩ := ih
    have ⟨pending', he', hv'⟩ := valid_step hv ha hs
    exact ⟨pending', by rw [he, List.append_assoc, he', List.append_assoc], hv'⟩

/-- Between the operations nobody lays claim to a unit. -/
theorem quiet_units {s : Ring} {pending : List ℕ} (h : Valid s pending none) (hq : Quiet s) (k : Kind) :
    (s.sem k).count = amount s pending k ∧ earlies s = 0 := by
  have hplace : ∀ p, claim k (s.place p) = 0 ∧ early (s.place p) = 0 := by
    intro p
    rcases hq p with he | he | ⟨ch, he⟩ | ⟨max, he⟩ <;> rw [he] <;> cases k <;> exact ⟨rfl, rfl⟩
  have hunits := h.units k
  have hclaims : claims k s = 0 := Finset.sum_eq_zero fun q _ => (hplace q).1
  have hearlies : earlies s = 0 := Finset.sum_eq_zero fun q _ => (hplace q).2
  rw [hclaims] at hunits
  exact ⟨hunits, hearlies⟩

/-- A process waits only if there is nothing to wait for. -/
theorem quiet_waits {s : Ring} {pending : List ℕ} (h : Valid s pending none) (hq : Quiet s) {k : Kind}
    {p : ℕ} (hw : Waits k (s.place p)) : amount s pending k = 0 := by
  have hout : s.place p ≠ .out := by
    intro he
    rw [he] at hw
    exact absurd hw (not_waits ⟨id, id⟩ k)
  have hmem := (h.queues.waits k p).mpr ⟨h.queues.running hout, hw⟩
  rw [← (quiet_units h hq k).1]
  exact h.queues.idle k (List.ne_nil_of_mem hmem)

/-- In a run whose steps are allowed, the bytes come out as they went in, and
between the operations both semaphores count what they should. -/
theorem buffer_run {s : Ring} {returned stored : List ℕ} (h : Run Allowed s returned stored) :
    Sound s returned stored := by
  have ⟨pending, he, hv⟩ := valid_run h
  have hlength : stored.length-returned.length = pending.length := by
    rw [he, List.length_append]
    omega
  refine ⟨⟨pending, he.symm⟩, ?_, fun hq => ?_, fun hq => ?_, fun hq hlt p hw => ?_, fun hq hlt p hw => ?_,
    hv.free⟩
  · rw [hlength]
    exact hv.holds.room
  · rw [hlength]
    exact (quiet_units hv hq .item).1
  · have ⟨hcount, hearly⟩ := quiet_units hv hq .space
    rw [hcount, amount, hearly]
    rfl
  · have hzero : pending.length = 0 := quiet_waits (k := .item) hv hq hw
    omega
  · have hzero : s.left+earlies s = 0 := quiet_waits (k := .space) hv hq hw
    omega

/-! ## A unit that is lost -/

def empty : Ring where
  buffer := fun _ => 0
  length := pageSize
  left := pageSize
  readIndex := 0
  writeIndex := 0
  lock := none
  sem := fun
    | .item => ⟨0, []⟩
    | .space => ⟨pageSize, []⟩
  connected := true
  place := fun _ => .out
  procs := 1

theorem empty_start : Start empty :=
  ⟨⟨0, rfl⟩, by decide, rfl, rfl, rfl, rfl, rfl, rfl, fun _ => rfl⟩

/-- Two bytes are stored by `put_data`. -/
def storing : Ring := { empty with lock := some 0 }.go 0 (.writeByte [5, 6])

def first : Ring := (((storing.put 5).go 0 (.writeSpace [6])).up .item).down .space 0 (.writeStuck [6])

def second : Ring := (((first.put 6).go 0 (.writeSpace [])).up .item).down .space 0 (.writeStuck [])

def both : Ring := { second with lock := none }.go 0 .out

theorem allowed_space {s : Ring} {p : ℕ} {rest : List ℕ} (hp : s.place p = .writeSpace rest)
    (h : claims .space s ≤ s.left) : Allowed s (.go p) := by
  rw [Allowed, hp]
  exact h

theorem both_run : Run Allowed both [] [5, 6] := by
  have h0 : Run Allowed storing [] [] := (Run.start empty_start).step (e := .putData 0 [5, 6]) trivial
    (Step.putData (by decide) rfl rfl (by decide) rfl)
  have h1 : Run Allowed first [] [5] := (h0.step (e := .go 0) trivial (Step.writeByte rfl)).step
    (allowed_space (p := 0) rfl (by decide)) (Step.writeSpace rfl)
  have h2 : Run Allowed second [] [5, 6] := (h1.step (e := .go 0) trivial (Step.writeByte rfl)).step
    (allowed_space (p := 0) rfl (by decide)) (Step.writeSpace rfl)
  exact h2.step (e := .go 0) trivial (Step.writeDone rfl)

theorem buffer_run_both : Sound both [] [5, 6] := buffer_run both_run

theorem run_mono {allowed allowed' : Ring → Event → Prop} {s : Ring} {returned stored : List ℕ}
    (h : ∀ s e, allowed s e → allowed' s e) (hr : Run allowed s returned stored) :
    Run allowed' s returned stored := by
  induction hr with
  | start hs => exact Run.start hs
  | step _ ha hs ih => exact ih.step (h _ _ ha) hs

/-- `get_data` for one byte, up to its lock, its byte and its second `down`. -/
def asked : Ring := both.down .item 0 (.readWait 1)

def locked : Ring := { asked with lock := some 0 }.go 0 (.readByte 1)

def copied : Ring := (locked.take.go 0 (.readItem 0)).up .space

def further : Ring := copied.down .item 0 (.readStuck 0)

def lost : Ring := { further with lock := none }.go 0 .out

theorem lost_run : Run (fun _ _ => True) lost [5] [5, 6] := by
  have h0 : Run (fun _ _ => True) both [] [5, 6] := run_mono (fun _ _ _ => trivial) both_run
  have h1 : Run (fun _ _ => True) asked [] [5, 6] :=
    h0.step (e := .getData 0 1) trivial (Step.getData (by decide) rfl)
  have h2 : Run (fun _ _ => True) locked [] [5, 6] :=
    h1.step trivial (@Step.readLock _ 0 1 rfl rfl rfl)
  have h3 : Run (fun _ _ => True) copied [5] [5, 6] :=
    h2.step trivial (Step.readByte (p := 0) (n := 0) rfl)
  have h4 : Run (fun _ _ => True) further [5] [5, 6] :=
    h3.step trivial (Step.readItem (p := 0) (n := 0) rfl (by decide))
  exact h4.step trivial (Step.readDone (p := 0) rfl)

theorem lost_quiet : Quiet lost := by
  intro p
  refine .inl ?_
  by_cases hp : p = 0
  · rw [hp]
    rfl
  · have ⟨_, _, hv⟩ := valid_run both_run
    have hboth : both.place p = .out := hv.queues.later p (by change 1 ≤ p; omega)
    have hdown : ∀ (s : Ring) k wait, (s.down k 0 wait).place p = s.place p := by
      intro s k wait
      rcases down_cases s k 0 wait with ⟨_, hd⟩ | ⟨_, hd⟩ <;> rw [hd] <;> exact go_other hp
    have hup : copied.place = (locked.take.go 0 (.readItem 0)).place := by
      rw [copied, Ring.up]
      rfl
    rw [lost, go_other hp]
    change further.place p = .out
    rw [further, hdown, hup, go_other hp]
    change locked.place p = .out
    rw [locked, go_other hp]
    change asked.place p = .out
    rw [asked, hdown, hboth]

/-- One byte of the two is read by `get_data`, and no unit is left for the other. -/
theorem unit_lost : ∃ s returned stored, Run (fun _ _ => True) s returned stored ∧
    ¬ Sound s returned stored :=
  ⟨lost, _, _, lost_run, fun h => absurd (h.items lost_quiet) (by decide)⟩

end BabyOS.SocketStreams
