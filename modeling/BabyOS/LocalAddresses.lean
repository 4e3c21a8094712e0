import BabyOS.LocalSockets

/-!
# Addresses of local sockets

`bind` and `connect` scan the same table, one for sockets in use and the other
for all of them, and a slot keeps its address, its flags and its state when it is
freed. Which sockets `connect` may find is determined, and that `bind` keeps the
addresses apart.
-/

set_option autoImplicit false

namespace BabyOS.LocalAddresses
open BabyOS.LocalSockets

/-- An allocated socket that was bound to the address and listened to since. -/
def Serves (x : Socket) (addr : Address) : Prop :=
  x.ref ≠ 0 ∧ x.bound = true ∧ x.listened = true ∧ x.addr = addr

/-- No two allocated sockets are bound to one address. -/
def Unique (t : Sockets) : Prop :=
  ∀ i j, (t i).ref ≠ 0 → (t j).ref ≠ 0 → (t i).bound = true → (t j).bound = true →
    (t i).addr = (t j).addr → i = j

/-- `connect` queues on a socket that serves the address, or returns an error. -/
def Resolves (t : Sockets) (beyond : ℕ → Bool) (i : ℕ) (addr : Address) : Prop :=
  ∀ j, connectTo t beyond i addr = some j → Serves (t j) addr

/-- The slot is the first one of the table with the address. -/
def First (t : Sockets) (beyond : ℕ → Bool) (addr : Address) (j : ℕ) : Prop :=
  j < maxLocalSocket ∧ sameAddr (t j).addr addr (beyond j) = true ∧
    ∀ k < j, sameAddr (t k).addr addr (beyond k) = false

/-- The first slot with the address, if it looks like a listener, is in use and
was bound and listened to since it was allocated. -/
def Fresh (t : Sockets) (beyond : ℕ → Bool) (addr : Address) : Prop :=
  addr.family = afLocal → ∀ j, First t beyond addr j → (t j).state = .unconnected →
    (t j).acceptcon = true → (t j).ref ≠ 0 ∧ (t j).bound = true ∧ (t j).listened = true

/-- The calls of the claim: none of them is `accept`, and the paths that sockets
are bound to have a terminator. -/
def Plain (_ : State) : Event → Prop
  | .bind _ _ addr _ => addr.path.length < maxLocalPath
  | .accept _ _ | .acceptNoFile _ _ | .acceptNoFd _ _ | .accepted _ => False
  | _ => True

/-! ## The lookup -/

section Lookup

variable {t : Sockets} {beyond : ℕ → Bool} {addr : Address} {i j : ℕ}

theorem sameAddr_eq {a b : Address} {c : Bool} (h : sameAddr a b c = true) : a = b :=
  of_decide_eq_true (Bool.and_eq_true_iff.mp h).1

/-- A path with a terminator is compared without looking behind it. -/
theorem sameAddr_self {a : Address} (h : a.path.length < maxLocalPath) (c : Bool) :
    sameAddr a a c = true := by
  simp [sameAddr, h]

theorem lookup_first : lookup t beyond addr = some j ↔ First t beyond addr j := by
  rw [lookup, List.find?_range_eq_some, First]
  simp
  tauto

/-- Where `connect` of an unconnected socket queues. -/
theorem connectTo_iff (hi : (t i).state = .unconnected) :
    connectTo t beyond i addr = some j ↔ addr.family = afLocal ∧ First t beyond addr j ∧
      (t j).state = .unconnected ∧ (t j).acceptcon = true := by
  rw [← lookup_first, connectTo, if_neg (not_not.mpr hi)]
  by_cases hf : addr.family = afLocal
  · rw [if_neg (not_not.mpr hf)]
    cases hl : lookup t beyond addr with
    | none => simp
    | some k =>
      constructor
      · intro h
        simp only at h
        split at h
        · cases h
        · rename_i hs
          split at h
          · rename_i ha
            have hkj := Option.some.inj h
            subst hkj
            exact ⟨hf, rfl, not_not.mp hs, ha⟩
          · cases h
      · intro ⟨_, hk, hs, ha⟩
        have hkj := Option.some.inj hk
        subst hkj
        simp only [hs, ha]
        rw [if_neg (by simp), if_pos trivial]
  · rw [if_pos hf]
    simp [hf]

theorem resolves_iff (hi : (t i).state = .unconnected) :
    Resolves t beyond i addr ↔ Fresh t beyond addr := by
  constructor
  · intro h hf j hj hs ha
    have ⟨hr, hb, hl, _⟩ := h j ((connectTo_iff hi).mpr ⟨hf, hj, hs, ha⟩)
    exact ⟨hr, hb, hl⟩
  · intro h j hc
    have ⟨hf, hj, hs, ha⟩ := (connectTo_iff hi).mp hc
    have ⟨hr, hb, hl⟩ := h hf j hj hs ha
    exact ⟨hr, hb, hl, sameAddr_eq hj.2.1⟩

end Lookup

/-! ## The table -/

/-- Allocated sockets are in the table, and have paths with a terminator. -/
structure Table (t : Sockets) : Prop where
  range : ∀ i, (t i).ref ≠ 0 → i < maxLocalSocket
  ends : ∀ i, (t i).ref ≠ 0 → (t i).addr.path.length < maxLocalPath
  unique : Unique t

section Table

variable {t t' : Sockets} {beyond : ℕ → Bool} {addr : Address} {i j n : ℕ}

/-- The socket keeps its address and is not bound, nor allocated. -/
def Keeps (x x' : Socket) : Prop :=
  x'.ref ≠ 0 → x.ref ≠ 0 ∧ x'.addr = x.addr ∧ x'.bound = x.bound

theorem table_keeps (h : Table t) (hk : ∀ i, Keeps (t i) (t' i)) : Table t' := by
  refine ⟨fun i hi => h.range i (hk i hi).1, fun i hi => ?_, fun i j hi hj hbi hbj ha => ?_⟩
  · rw [(hk i hi).2.1]
    exact h.ends i (hk i hi).1
  · have ⟨hri, hai, hci⟩ := hk i hi
    have ⟨hrj, haj, hcj⟩ := hk j hj
    exact h.unique i j hri hrj (hci ▸ hbi) (hcj ▸ hbj) (hai ▸ haj ▸ ha)

/-- One slot holds a new socket, which is not bound. -/
theorem table_new (h : Table t) (hk : ∀ j, j ≠ i → Keeps (t j) (t' j)) (hi : i < maxLocalSocket)
    (hb : (t' i).bound = false) (hp : (t' i).addr.path.length < maxLocalPath) : Table t' := by
  have hother : ∀ j, (t' j).bound = true → j ≠ i := by
    intro j hj he
    rw [he, hb] at hj
    cases hj
  refine ⟨fun j hj => ?_, fun j hj => ?_, fun j k hj hk' hbj hbk ha => ?_⟩
  · by_cases he : j = i
    · rw [he]
      exact hi
    · exact h.range j (hk j he hj).1
  · by_cases he : j = i
    · rw [he]
      exact hp
    · rw [(hk j he hj).2.1]
      exact h.ends j (hk j he hj).1
  · have ⟨hrj, haj, hcj⟩ := hk j (hother j hbj) hj
    have ⟨hrk, hak, hck⟩ := hk k (hother k hbk) hk'
    exact h.unique j k hrj hrk (hcj ▸ hbj) (hck ▸ hbk) (haj ▸ hak ▸ ha)

theorem table_create (h : Table t) (ha : alloc t n = some (i, t')) : Table (create t' i) := by
  have ⟨hlt, _, hother, x, hx, _, _, _, _, hb, hp⟩ := create_alloc ha
  refine table_new h (fun j hj => ?_) hlt (by rw [hx, hb]) (by rw [hx, hp]; decide)
  rw [hother j hj]
  exact fun hr => ⟨hr, rfl, rfl⟩

/-- Sockets that are given up at once are not bound. -/
theorem table_giveUp (h : Table t) (ha : alloc t n = some (i, t')) :
    Table (release (create t' i) i) ∧ Table (release (release (create t' i) i) i) := by
  have ⟨hlt, _, hother, x, hx, _, hs, hpeer, _, hb, hp⟩ := create_alloc ha
  have hs' : (create t' i i).state = .unconnected := by rw [hx, hs]
  have hpeer' : (create t' i i).peer = none := by rw [hx, hpeer]
  have h1 := release_plain hs' hpeer'
  have h2 := release_plain (t := release (create t' i) i) (by rw [h1]; exact hs')
    (by rw [h1]; exact hpeer')
  constructor
  · refine table_new h (fun j hj => ?_) hlt ?_ ?_
    · rw [h1, if_neg hj, hother j hj]
      exact fun hr => ⟨hr, rfl, rfl⟩
    · rw [h1, hx]
      exact hb
    · rw [h1, hx]
      simp only [hp]
      decide
  · refine table_new h (fun j hj => ?_) hlt ?_ ?_
    · rw [h2, if_neg hj, h1, if_neg hj, hother j hj]
      exact fun hr => ⟨hr, rfl, rfl⟩
    · rw [h2, h1, hx]
      exact hb
    · rw [h2, h1, hx]
      simp only [hp]
      decide

theorem table_bind (h : Table t) (hi : (t i).ref ≠ 0) (ha : addr.path.length < maxLocalPath)
    (hb : bindLocal t beyond i addr = some t') : Table t' := by
  rw [bindLocal] at hb
  split at hb
  · cases hb
  · rename_i hfree
    have ht := Option.some.inj hb
    subst ht
    have hnone : ∀ k, (t k).ref ≠ 0 → (t k).addr ≠ addr := by
      intro k hk he
      refine hfree ⟨k, h.range k hk, ?_, hk⟩
      rw [he]
      exact sameAddr_self ha _
    have hkeep : ∀ j, j ≠ i → modify t i (fun x => { x with addr, bound := true }) j = t j :=
      fun j hj => modify_other _ _ hj
    refine ⟨fun j hj => ?_, fun j hj => ?_, fun j k hj hk hbj hbk he => ?_⟩
    · by_cases hji : j = i
      · rw [hji]
        exact h.range i hi
      · rw [hkeep j hji] at hj
        exact h.range j hj
    · by_cases hji : j = i
      · rw [hji, modify_same]
        exact ha
      · rw [hkeep j hji] at hj ⊢
        exact h.ends j hj
    · by_cases hji : j = i <;> by_cases hki : k = i
      · rw [hji, hki]
      · rw [hji, modify_same, hkeep k hki] at he
        rw [hkeep k hki] at hk
        exact absurd he.symm (hnone k hk)
      · rw [hki, modify_same, hkeep j hji] at he
        rw [hkeep j hji] at hj
        exact absurd he (hnone j hj)
      · rw [hkeep j hji] at hj hbj he
        rw [hkeep k hki] at hk hbk he
        exact h.unique j k hj hk hbj hbk he

end Table

/-! ## Runs -/

/-- Every open socket is the one its slot was allocated for, and not connected. -/
structure Named (s : State) : Prop where
  files : Files s
  opened : ∀ i, s.Opened i →
    (s.sockets i).ref = 1 ∧ (s.sockets i).state = .unconnected ∧ (s.sockets i).peer = none
  table : Table s.sockets

section Steps

variable {s s' : State} {e : Event}

theorem Named.used (h : Named s) (i : ℕ) (ho : s.Opened i) : (s.sockets i).ref ≠ 0 := by
  rw [(h.opened i ho).1]
  exact one_ne_zero

/-- A call that changes what no address depends on. -/
theorem opened_keeps {t : Sockets} (h : Named s)
    (hk : ∀ i, (t i).ref = (s.sockets i).ref ∧ (t i).state = (s.sockets i).state ∧
      (t i).peer = (s.sockets i).peer) :
    ∀ i, s.Opened i → (t i).ref = 1 ∧ (t i).state = .unconnected ∧ (t i).peer = none := by
  intro i hi
  have ⟨hr, hs, hp⟩ := hk i
  rw [hr, hs, hp]
  exact h.opened i hi

/-- The sockets other than a new one are those of before. -/
theorem opened_other {t : Sockets} {i : ℕ} (h : Named s) (hi : ¬ s.Opened i)
    (hk : ∀ j, j ≠ i → (t j).ref = (s.sockets j).ref ∧ (t j).state = (s.sockets j).state ∧
      (t j).peer = (s.sockets j).peer) :
    ∀ j, s.Opened j → (t j).ref = 1 ∧ (t j).state = .unconnected ∧ (t j).peer = none := by
  intro j hj
  have ⟨hr, hs, hp⟩ := hk j fun he => hi (he ▸ hj)
  rw [hr, hs, hp]
  exact h.opened j hj

theorem named_step (h : Named s) (ha : Plain s e) (hs : Step s e s') : Named s' := by
  have hfiles := files_step h.files h.used hs
  have hnew : ∀ {i t}, alloc s.sockets s.serials = some (i, t) → ¬ s.Opened i :=
    fun ha ho => h.used _ ho (alloc_free ha).1
  cases hs with
  | @socket p i t hp hidle hal =>
    refine ⟨hfiles, fun j hj => ?_, table_create h.table hal⟩
    have ⟨_, _, hother, x, hx, hr, hst, hpe, _⟩ := create_alloc hal
    change (create t i j).ref = 1 ∧ (create t i j).state = _ ∧ (create t i j).peer = none
    by_cases hji : j = i
    · rw [hji, hx]
      exact ⟨hr, hst, hpe⟩
    · rw [hother j hji]
      rcases (opened_openFile h.files).mp hj with hj | hj
      · exact h.opened j hj
      · exact absurd hj hji
  | @socketNoFile p i t hp hidle hal =>
    have ⟨_, _, hother, x, hx, _, hst, hpe, _⟩ := create_alloc hal
    refine ⟨hfiles, opened_other (s := s) (t := release (create t i) i) h (hnew hal) fun j hj => ?_,
      (table_giveUp h.table hal).1⟩
    rw [release_plain (by rw [hx, hst]) (by rw [hx, hpe]), if_neg hj, hother j hj]
    exact ⟨rfl, rfl, rfl⟩
  | @socketNoFd p i t hp hidle hal =>
    have ⟨_, _, hother, x, hx, _, hst, hpe, _⟩ := create_alloc hal
    have h1 := release_plain (t := create t i) (i := i) (by rw [hx, hst]) (by rw [hx, hpe])
    refine ⟨hfiles, opened_other (s := s) (t := release (release (create t i) i) i) h (hnew hal)
      fun j hj => ?_, (table_giveUp h.table hal).2⟩
    rw [release_plain (by rw [h1, hx]; exact hst) (by rw [h1, hx]; exact hpe), if_neg hj, h1,
      if_neg hj, hother j hj]
    exact ⟨rfl, rfl, rfl⟩
  | @bind p f addr beyond t hu hb =>
    have hopen : s.Opened (s.file f) := ⟨p, f, hu.2, rfl⟩
    refine ⟨hfiles, opened_keeps (s := s) (t := t) h fun i => ?_, table_bind h.table (h.used _ hopen) ha hb⟩
    rw [bindLocal] at hb
    split at hb
    · cases hb
    · rw [← Option.some.inj hb, modify_apply]
      split <;> exact ⟨rfl, rfl, rfl⟩
  | @listen p f hu =>
    have hk : ∀ i, LocalSockets.listen s.sockets (s.file f) i = s.sockets i ∨
        LocalSockets.listen s.sockets (s.file f) i =
          { s.sockets i with acceptcon := true, listened := true } := by
      intro i
      rw [LocalSockets.listen]
      split
      · exact .inl rfl
      · rw [modify_apply]
        split
        · exact .inr rfl
        · exact .inl rfl
    refine ⟨hfiles, opened_keeps (s := s) (t := LocalSockets.listen s.sockets (s.file f)) h fun i => ?_,
      table_keeps h.table fun i hr => ?_⟩
    · rcases hk i with hi | hi <;> rw [hi] <;> exact ⟨rfl, rfl, rfl⟩
    · rcases hk i with hi | hi <;> simp_all only [and_self, ne_eq, not_false_eq_true]
  | @connect p f j addr beyond hu hj =>
    have hk : ∀ i, ∃ l, modify s.sockets j (fun x => { x with
        connecting := x.connecting ++ [s.file f] }) i = { s.sockets i with connecting := l } := by
      intro i
      rw [modify_apply]
      split
      · exact ⟨_, rfl⟩
      · exact ⟨(s.sockets i).connecting, rfl⟩
    refine ⟨hfiles, opened_keeps (s := s) h fun i => ?_, table_keeps h.table fun i hr => ?_⟩
    · have ⟨l, hl⟩ := hk i
      simp only [State.setCall, hl, and_self]
    · have ⟨l, hl⟩ := hk i
      simp only [State.setCall, hl] at hr ⊢
      simp only [hr, ne_eq, not_false_eq_true, and_self]
  | @resume p f hc hw =>
    have hopen : s.Opened (s.file f) := ⟨p, f, h.files.connecting p f hc, rfl⟩
    have hst := (h.opened _ hopen).2.1
    have hk : ∀ i, ∃ n, connected s.sockets (s.file f) i = { s.sockets i with waitAccept := n } := by
      intro i
      rw [connected, modify_apply]
      split
      · rename_i hi
        refine ⟨(s.sockets i).waitAccept-1, ?_⟩
        rw [hi, if_neg (by rw [hst]; decide)]
      · exact ⟨(s.sockets i).waitAccept, rfl⟩
    refine ⟨hfiles, opened_keeps (s := s) h fun i => ?_, table_keeps h.table fun i hr => ?_⟩
    · have ⟨n, hn⟩ := hk i
      simp only [State.setCall, hn, and_self]
    · have ⟨n, hn⟩ := hk i
      simp only [State.setCall, hn] at hr ⊢
      simp only [hr, ne_eq, not_false_eq_true, and_self]
  | accept hu hl hal => exact ha.elim
  | acceptNoFile hu hl hal => exact ha.elim
  | acceptNoFd hu hl hal => exact ha.elim
  | accepted hc hq => exact ha.elim
  | write hu => exact ⟨hfiles, h.opened, h.table⟩
  | written hc => exact ⟨hfiles, h.opened, h.table⟩
  | @dup p f hu =>
    refine ⟨hfiles, fun i ⟨q, g, hg, he⟩ => h.opened i ?_, h.table⟩
    by_cases hq : q = p
    · rw [hq] at hg
      simp only [Function.update_self] at hg
      rcases List.mem_cons.mp hg with hg | hg
      · exact ⟨p, f, hu.2, hg ▸ he⟩
      · exact ⟨p, g, hg, he⟩
    · exact ⟨q, g, by simpa only [Function.update_of_ne hq] using hg, he⟩
  | @fork p hp hidle =>
    refine ⟨hfiles, fun i ⟨q, g, hg, he⟩ => h.opened i ?_, h.table⟩
    by_cases hq : q = s.procs
    · exact ⟨p, g, by simpa only [hq, Function.update_self] using hg, he⟩
    · exact ⟨q, g, by simpa only [Function.update_of_ne hq] using hg, he⟩
  | closeShared hu hq =>
    exact ⟨hfiles, fun i ⟨q, g, hg, he⟩ => h.opened i ⟨q, g, mem_closed hg, he⟩, h.table⟩
  | @closeLast p f hu hq =>
    have hopen : s.Opened (s.file f) := ⟨p, f, hu.2, rfl⟩
    have ⟨hr, hst, hpe⟩ := h.opened _ hopen
    have hrel := release_plain hst hpe
    refine ⟨hfiles, fun i ⟨q, g, hg, he⟩ => ?_, table_keeps h.table fun i hi => ?_⟩
    · have hne : i ≠ s.file f := by
        intro heq
        have hgf := h.files.one q p g f (mem_closed hg) hu.2 (he.trans heq)
        exact hq q (hgf ▸ hg)
      simp only [hrel, if_neg hne]
      exact h.opened i ⟨q, g, mem_closed hg, he⟩
    · simp only [hrel] at hi ⊢
      by_cases heq : i = s.file f
      · rw [if_pos heq, heq, hr, dec_succ (by decide)] at hi
        exact absurd rfl hi
      · rw [if_neg heq] at hi
        simp only [hi, ne_eq, not_false_eq_true, and_self]

end Steps

theorem named_start {s : State} (h : Start s) : Named s := by
  refine ⟨files_start h, fun i ⟨p, f, hf, _⟩ => ?_, ⟨?_, ?_, ?_⟩⟩
  · rw [h.fds p] at hf
    cases hf
  · exact fun i hi => absurd (h.ref i) hi
  · exact fun i hi => absurd (h.ref i) hi
  · exact fun i _ hi => absurd (h.ref i) hi

theorem named_run {s : State} (h : Run Plain s) : Named s := by
  induction h with
  | start hs => exact named_start hs
  | step _ ha hs ih => exact named_step ih ha hs

def name : Address := ⟨afLocal, [0x61], by decide, by decide⟩

theorem nonzero_nil : ∀ b ∈ ([] : List (BitVec 8)), b ≠ 0 := by decide

def blank : Socket :=
  ⟨0, ⟨0, [], by decide, nonzero_nil⟩, false, .free, [], none, 0, 0, false, false, none⟩

def booted : State := ⟨fun _ => blank, 0, fun _ => 0, 0, fun _ => [], fun _ => .idle, 1⟩

/-- `socket()` by process 0, which gets slot `i`. -/
def made (s : State) (i : ℕ) : State :=
  s.openFile (create (modify s.sockets i fun x => { x with
    ref := 1, serial := s.serials, bound := false, listened := false, mate := none }) i) 0 i

def pair : State := made (made booted 0) 1

def named : State := { pair with
  sockets := modify pair.sockets 1 fun x => { x with addr := name, bound := true } }

def listening : State := { named with sockets := LocalSockets.listen named.sockets 1 }

def closed : State := { listening with
  sockets := release listening.sockets 1, fds := Function.update listening.fds 0 [0] }

theorem pair_run {allowed : State → Event → Prop} (h : ∀ s, allowed s (.socket 0)) :
    Run allowed pair := by
  have h0 : Start booted := ⟨fun _ => rfl, fun _ => rfl, fun _ => rfl⟩
  have h1 := (Run.start h0).step (h _) (Step.socket (s := booted) (p := 0) (i := 0) (by decide) rfl rfl)
  exact h1.step (h _) (Step.socket (s := made booted 0) (p := 0) (i := 1) (by decide) rfl rfl)

theorem pair_sockets (k : ℕ) : (pair.sockets k).addr.path = [] := by
  change (create _ 1 k).addr.path = []
  rw [create, modify_apply]
  split
  · rfl
  · rw [modify_apply]
    split
    · contradiction
    · change (create _ 0 k).addr.path = []
      rw [create, modify_apply]
      split
      · rfl
      · rw [modify_apply]
        split
        · contradiction
        · rfl

theorem bind_name : bindLocal pair.sockets (fun _ => false) 1 name = some named.sockets := by
  rw [bindLocal, if_neg]
  · rfl
  · rintro ⟨k, _, hs, _⟩
    have he := pair_sockets k
    rw [sameAddr_eq hs] at he
    cases he

theorem listening_run {allowed : State → Event → Prop} (hs : ∀ s, allowed s (.socket 0))
    (hb : allowed pair (.bind 0 1 name fun _ => false)) (hl : allowed named (.listen 0 1)) :
    Run allowed listening := by
  have h2 : Run allowed named := (pair_run hs).step hb (Step.bind ⟨rfl, by decide⟩ bind_name)
  exact h2.step hl (Step.listen ⟨rfl, by decide⟩)

theorem closed_run : Run Plain closed := by
  have hb : Plain pair (.bind 0 1 name fun _ => false) := by
    change name.path.length < maxLocalPath
    decide
  have h3 : Run Plain listening := listening_run (fun _ => trivial) hb trivial
  refine h3.step (e := .close 0 1) trivial (Step.closeLast (p := 0) (f := 1) ⟨rfl, by decide⟩ ?_)
  intro q
  by_cases hq : q = 0
  · rw [hq]
    decide
  · have hl := ((named_run h3).files.later q (by change 1 ≤ q; omega)).1
    rw [Function.update_of_ne hq, hl]
    exact List.not_mem_nil

end BabyOS.LocalAddresses
