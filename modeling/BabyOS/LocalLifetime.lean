import BabyOS.LocalAddresses

/-!
# Lifetime of local sockets

`m_ref` of a connected socket counts its own file and the file of its peer. The
two sides are counted in by two processes, `accept` and the second half of
`connect`, and counted out by whoever closes first.
-/

set_option autoImplicit false

namespace BabyOS.LocalLifetime
open BabyOS.LocalSockets
open BabyOS.LocalAddresses (name booted made pair named listening listening_run)

/-- Something refers to the slot: a file, the peer of a socket in use, or the
list of an open socket. -/
def InUse (s : State) (i : ℕ) : Prop :=
  s.Opened i ∨ (∃ k, (s.sockets k).ref ≠ 0 ∧ (s.sockets k).peer = some i) ∨
    ∃ k, s.Opened k ∧ i ∈ (s.sockets k).connecting

/-- Slots in use have references, so that none of them is handed out; the count
never went below zero; and a write goes to the buffer of the socket that `accept`
has connected the writing one with. -/
structure Sound (s : State) : Prop where
  counted : ∀ i, InUse s i → (s.sockets i).ref ≠ 0
  handed : ∀ i t, alloc s.sockets s.serials = some (i, t) → ¬ InUse s i
  small : ∀ i, (s.sockets i).ref < 2^31
  writes : ∀ p f target, s.call p = .writing f target →
    ∃ j, target = some j ∧ (s.sockets (s.file f)).peer = some j ∧
      (s.sockets (s.file f)).mate = some (s.sockets j).serial

/-- A descriptor is found for every socket; `connect` does not queue a socket
while another `connect` on it sleeps; a socket that was never connected is not
written to; and a socket is not closed before the `connect` of its peer has
returned. -/
def Allowed (s : State) : Event → Prop
  | .socketNoFd _ | .acceptNoFd _ _ => False
  | .connect _ f addr beyond =>
      connectTo s.sockets beyond (s.file f) addr ≠ none → ¬ s.Connecting (s.file f)
  | .write _ f => (s.sockets (s.file f)).peer ≠ none
  | .close p f => (∀ q, f ∉ Function.update s.fds p ((s.fds p).erase f) q) →
      ∀ j, (s.sockets (s.file f)).peer = some j → ¬ s.Connecting j
  | _ => True

/-! ## The table -/

/-- The table, when `O` are the open sockets and `C` those that connect. -/
structure Table (O C : ℕ → Prop) (t : Sockets) : Prop where
  asleep : ∀ i, C i → O i
  closed : ∀ i, ¬ O i → (t i).ref = 0 ∨ ((t i).ref = 1 ∧ ∃ j, (t i).peer = some j ∧ O j)
  alone : ∀ i, O i → (t i).peer = none → (t i).ref = 1 ∧ (t i).state = .unconnected
  paired : ∀ i j, (t i).ref ≠ 0 → (t i).peer = some j →
    i ≠ j ∧ (t j).ref ≠ 0 ∧ (t j).peer = some i ∧ (t i).mate = some (t j).serial ∧
      (t i).state ≠ .unconnected
  both : ∀ i j, O i → (t i).peer = some j → O j →
    (¬ C i → (t i).ref = 2) ∧ (C i → (t i).ref = 1 ∧ (t i).state = .connected)
  left : ∀ i j, O i → (t i).peer = some j → ¬ O j → (t i).ref = 1 ∧ ¬ C i
  linked : ∀ i c, O i → c ∈ (t i).connecting → C c ∧ (t c).waitAccept = 0 ∧ (t c).peer = none
  once : ∀ i, O i → (t i).connecting.Nodup
  apart : ∀ i j c, O i → O j → c ∈ (t i).connecting → c ∈ (t j).connecting → i = j
  quiet : ∀ c, O c → ¬ C c → (t c).waitAccept = 0
  units : ∀ c, C c → (t c).waitAccept ≤ 1

section Table

variable {O C O' C' : ℕ → Prop} {t t' : Sockets} {i j n c : ℕ}

theorem Table.congr (h : Table O C t) (hO : ∀ i, O' i ↔ O i) (hC : ∀ i, C' i ↔ C i) : Table O' C' t := by
  have hO' : O' = O := funext fun i => propext (hO i)
  have hC' : C' = C := funext fun i => propext (hC i)
  rw [hO', hC']
  exact h

/-- An open socket has a reference, or two. -/
theorem Table.opened (h : Table O C t) (ho : O i) : (t i).ref = 1 ∨ (t i).ref = 2 := by
  cases hp : (t i).peer with
  | none => exact .inl (h.alone i ho hp).1
  | some j =>
    by_cases hj : O j
    · by_cases hc : C i
      · exact .inl ((h.both i j ho hp hj).2 hc).1
      · exact .inr ((h.both i j ho hp hj).1 hc)
    · exact .inl (h.left i j ho hp hj).1

theorem Table.used (h : Table O C t) (ho : O i) : (t i).ref ≠ 0 := by
  rcases h.opened ho with hr | hr <;> omega

theorem Table.small (h : Table O C t) (i : ℕ) : (t i).ref ≤ 2 := by
  by_cases ho : O i
  · rcases h.opened ho with hr | hr <;> omega
  · rcases h.closed i ho with hr | ⟨hr, _⟩ <;> omega

/-- Peers know each other. -/
theorem Table.back (h : Table O C t) (ho : O i) (hp : (t i).peer = some j) :
    i ≠ j ∧ (t j).ref ≠ 0 ∧ (t j).peer = some i :=
  have hpair := h.paired i j (h.used ho) hp
  ⟨hpair.1, hpair.2.1, hpair.2.2.1⟩

theorem Table.partner (h : Table O C t) (hr : (t i).ref ≠ 0) (hp : (t i).peer = some j)
    (hn : (t n).ref = 0 ∨ (t n).peer = none) : j ≠ n := by
  have ⟨_, hj, hb, _⟩ := h.paired i j hr hp
  intro he
  rw [he] at hj hb
  rcases hn with hn | hn
  · exact hj hn
  · rw [hn] at hb
    cases hb

/-- A slot without references is open to nobody and in no list. -/
theorem Table.unused (h : Table O C t) (hr : (t n).ref = 0) :
    ¬ O n ∧ ∀ i, O i → n ∉ (t i).connecting :=
  ⟨fun ho => h.used ho hr, fun i hi hm => h.used (h.asleep n (h.linked i n hi hm).1) hr⟩

/-- A new socket that is open. -/
theorem table_new (h : Table O C t) (hr : (t n).ref = 0) (hother : ∀ j, j ≠ n → t' j = t j)
    (href : (t' n).ref = 1) (hst : (t' n).state = .unconnected) (hpe : (t' n).peer = none)
    (hcon : (t' n).connecting = []) (hw : (t' n).waitAccept = 0) :
    Table (fun i => O i ∨ i = n) C t' := by
  have ⟨hno, hnl⟩ := h.unused hr
  have hne : ∀ {i}, O i → i ≠ n := fun ho he => hno (he ▸ ho)
  have hnc : ∀ {i}, C i → i ≠ n := fun hc => hne (h.asleep _ hc)
  have hold : ∀ {i}, O i ∨ i = n → i ≠ n → O i := fun ho hi => ho.resolve_right hi
  have hsome : ∀ {i j}, (t' i).peer = some j → i ≠ n := by
    intro i j hp he
    rw [he, hpe] at hp
    cases hp
  refine ⟨?_, ?_, ?_, ?_, ?_, ?_, ?_, ?_, ?_, ?_, ?_⟩
  · exact fun i hc => .inl (h.asleep i hc)
  · intro i ho
    have hi : i ≠ n := fun he => ho (.inr he)
    rw [hother i hi]
    rcases h.closed i (fun hi => ho (.inl hi)) with hz | ⟨h1, j, hp, hj⟩
    · exact .inl hz
    · exact .inr ⟨h1, j, hp, .inl hj⟩
  · intro i ho hp
    by_cases hi : i = n
    · rw [hi]
      exact ⟨href, hst⟩
    · rw [hother i hi] at hp ⊢
      exact h.alone i (hold ho hi) hp
  · intro i j hri hp
    have hi := hsome hp
    rw [hother i hi] at hri hp ⊢
    have hj := h.partner hri hp (.inl hr)
    rw [hother j hj]
    exact h.paired i j hri hp
  · intro i j ho hp hj
    have hi := hsome hp
    have hoi := hold ho hi
    rw [hother i hi] at hp ⊢
    exact h.both i j hoi hp (hold hj (h.partner (h.used hoi) hp (.inl hr)))
  · intro i j ho hp hj
    have hi := hsome hp
    rw [hother i hi] at hp ⊢
    exact h.left i j (hold ho hi) hp fun hj' => hj (.inl hj')
  · intro i c ho hc
    by_cases hi : i = n
    · rw [hi, hcon] at hc
      cases hc
    · rw [hother i hi] at hc
      have hl := h.linked i c (hold ho hi) hc
      rw [hother c (hnc hl.1)]
      exact hl
  · intro i ho
    by_cases hi : i = n
    · rw [hi, hcon]
      exact List.nodup_nil
    · rw [hother i hi]
      exact h.once i (hold ho hi)
  · intro i j c ho hj hci hcj
    by_cases hi : i = n
    · rw [hi, hcon] at hci
      cases hci
    · by_cases hj' : j = n
      · rw [hj', hcon] at hcj
        cases hcj
      · rw [hother i hi] at hci
        rw [hother j hj'] at hcj
        exact h.apart i j c (hold ho hi) (hold hj hj') hci hcj
  · intro c ho hc
    by_cases hi : c = n
    · rw [hi]
      exact hw
    · rw [hother c hi]
      exact h.quiet c (hold ho hi) hc
  · intro c hc
    rw [hother c (hnc hc)]
    exact h.units c hc

/-- A slot without references changes, and stays without. -/
theorem table_free (h : Table O C t) (hr : (t n).ref = 0) (hother : ∀ j, j ≠ n → t' j = t j)
    (href : (t' n).ref = 0) : Table O C t' := by
  have ⟨hno, _⟩ := h.unused hr
  have hne : ∀ {i}, O i → i ≠ n := fun ho he => hno (he ▸ ho)
  have hlive : ∀ {i}, (t' i).ref ≠ 0 → i ≠ n := fun hi he => hi (he ▸ href)
  refine ⟨h.asleep, ?_, ?_, ?_, ?_, ?_, ?_, ?_, ?_, ?_, ?_⟩
  · intro i ho
    by_cases hi : i = n
    · rw [hi]
      exact .inl href
    · rw [hother i hi]
      exact h.closed i ho
  · intro i ho
    rw [hother i (hne ho)]
    exact h.alone i ho
  · intro i j hri hp
    have hi := hlive hri
    rw [hother i hi] at hri hp ⊢
    rw [hother j (h.partner hri hp (.inl hr))]
    exact h.paired i j hri hp
  · intro i j ho
    rw [hother i (hne ho)]
    exact h.both i j ho
  · intro i j ho
    rw [hother i (hne ho)]
    exact h.left i j ho
  · intro i c ho hc
    rw [hother i (hne ho)] at hc
    have hl := h.linked i c ho hc
    rw [hother c (hne (h.asleep c hl.1))]
    exact hl
  · intro i ho
    rw [hother i (hne ho)]
    exact h.once i ho
  · intro i j c ho hj
    rw [hother i (hne ho), hother j (hne hj)]
    exact h.apart i j c ho hj
  · intro c ho
    rw [hother c (hne ho)]
    exact h.quiet c ho
  · intro c hc
    rw [hother c (hne (h.asleep c hc))]
    exact h.units c hc

/-- What the table is about in a socket. -/
def Agree (x x' : Socket) : Prop :=
  x'.ref = x.ref ∧ x'.state = x.state ∧ x'.peer = x.peer ∧ x'.mate = x.mate ∧
    x'.serial = x.serial ∧ x'.connecting = x.connecting ∧ x'.waitAccept = x.waitAccept

theorem table_agree (h : Table O C t) (ha : ∀ i, Agree (t i) (t' i)) : Table O C t' := by
  have href := fun i => (ha i).1
  have hst := fun i => (ha i).2.1
  have hpe := fun i => (ha i).2.2.1
  have hma := fun i => (ha i).2.2.2.1
  have hse := fun i => (ha i).2.2.2.2.1
  have hco := fun i => (ha i).2.2.2.2.2.1
  have hwa := fun i => (ha i).2.2.2.2.2.2
  refine ⟨h.asleep, ?_, ?_, ?_, ?_, ?_, ?_, ?_, ?_, ?_, ?_⟩
  · simpa only [href, hpe] using h.closed
  · simpa only [href, hpe, hst] using h.alone
  · simpa only [href, hpe, hst, hma, hse] using h.paired
  · simpa only [href, hpe, hst] using h.both
  · simpa only [href, hpe] using h.left
  · simpa only [hpe, hco, hwa] using h.linked
  · simpa only [hco] using h.once
  · simpa only [hco] using h.apart
  · simpa only [hwa] using h.quiet
  · simpa only [hwa] using h.units

/-- A socket queues on an open one. -/
theorem table_connect (h : Table O C t) (hi : O i) (hc : ¬ C i) (hs : (t i).state = .unconnected) :
    Table O (fun k => C k ∨ k = i)
      (modify t j fun x => { x with connecting := x.connecting ++ [i] }) := by
  have hpe : (t i).peer = none := by
    cases hp : (t i).peer with
    | none => rfl
    | some k => exact absurd hs (h.paired i k (h.used hi) hp).2.2.2.2
  have hout : ∀ k, O k → i ∉ (t k).connecting := fun k hk hm => hc (h.linked k i hk hm).1
  have happ : ∀ k, modify t j (fun x => { x with connecting := x.connecting ++ [i] }) k =
      { t k with connecting := if k = j then (t k).connecting ++ [i] else (t k).connecting } := by
    intro k
    rw [modify_apply]
    split <;> rfl
  have hmem : ∀ k c, c ∈ (if k = j then (t k).connecting ++ [i] else (t k).connecting) →
      c ∈ (t k).connecting ∨ (k = j ∧ c = i) := by
    intro k c hm
    split at hm
    · rename_i hk
      rcases List.mem_append.mp hm with hm | hm
      · exact .inl hm
      · exact .inr ⟨hk, List.mem_singleton.mp hm⟩
    · exact .inl hm
  refine ⟨?_, ?_, ?_, ?_, ?_, ?_, ?_, ?_, ?_, ?_, ?_⟩
  · rintro k (hk | hk)
    · exact h.asleep k hk
    · exact hk ▸ hi
  · simpa only [happ] using h.closed
  · simpa only [happ] using h.alone
  · simpa only [happ] using h.paired
  · intro k m hk hp hm
    simp only [happ] at hp ⊢
    have hki : k ≠ i := fun he => by rw [he, hpe] at hp; cases hp
    simp only [hki, or_false]
    exact h.both k m hk hp hm
  · intro k m hk hp hm
    simp only [happ] at hp ⊢
    have hki : k ≠ i := fun he => by rw [he, hpe] at hp; cases hp
    simp only [hki, or_false]
    exact h.left k m hk hp hm
  · intro k c hk hm
    simp only [happ] at hm ⊢
    rcases hmem k c hm with hm | ⟨_, hm⟩
    · have hl := h.linked k c hk hm
      exact ⟨.inl hl.1, hl.2⟩
    · rw [hm]
      exact ⟨.inr rfl, h.quiet i hi hc, hpe⟩
  · intro k hk
    simp only [happ]
    split
    · refine List.nodup_append.mpr ⟨h.once k hk, List.nodup_singleton i, ?_⟩
      intro c hcm d hd he
      rw [he, List.mem_singleton.mp hd] at hcm
      exact hout k hk hcm
    · exact h.once k hk
  · intro k m c hk hm hck hcm
    simp only [happ] at hck hcm
    rcases hmem k c hck with hck | ⟨hkj, hci⟩ <;> rcases hmem m c hcm with hcm | ⟨hmj, hci'⟩
    · exact h.apart k m c hk hm hck hcm
    · exact absurd (hci' ▸ hck) (hout k hk)
    · exact absurd (hci ▸ hcm) (hout m hm)
    · exact hkj.trans hmj.symm
  · intro c ho hcc
    simp only [happ]
    exact h.quiet c ho fun hcc' => hcc (.inl hcc')
  · rintro c (hcc | hcc)
    · simp only [happ]
      exact h.units c hcc
    · simp only [happ, hcc, h.quiet i hi hc]
      omega

/-- `connect` returns. -/
theorem table_resume (h : Table O C t) (hc : C i) (hw : 0 < (t i).waitAccept) :
    Table O (fun k => C k ∧ k ≠ i) (connected t i) := by
  have hi := h.asleep i hc
  have hone : (t i).waitAccept-1 = 0 := by
    have hle := h.units i hc
    omega
  have hout : ∀ k, O k → i ∉ (t k).connecting := by
    intro k hk hm
    have hzero := (h.linked k i hk hm).2.1
    omega
  have happ : ∀ k, connected t i k = { t k with
      ref := if k = i ∧ (t i).state = .connected then inc (t k).ref else (t k).ref
      waitAccept := if k = i then 0 else (t k).waitAccept } := by
    intro k
    rw [connected, modify_apply]
    by_cases hk : k = i
    · rw [if_pos hk, hk]
      by_cases hs : (t i).state = .connected
      · rw [if_pos hs, if_pos ⟨rfl, hs⟩, if_pos rfl, hone]
      · rw [if_neg hs, if_neg (fun hn => hs hn.2), if_pos rfl, hone]
    · rw [if_neg hk, if_neg (fun hn => hk hn.1), if_neg hk]
  -- The socket was taken off the list, or its listener closed.
  have hpeer : ∀ j, (t i).peer = some j → O j ∧ (t i).ref = 1 ∧ (t i).state = .connected := by
    intro j hp
    have hj : O j := by
      by_contra hj
      exact (h.left i j hi hp hj).2 hc
    exact ⟨hj, (h.both i j hi hp hj).2 hc⟩
  have hnone : (t i).peer = none → (t i).ref = 1 ∧ (t i).state ≠ .connected := by
    intro hp
    have ha := h.alone i hi hp
    exact ⟨ha.1, by rw [ha.2]; decide⟩
  have hkeep : ∀ k, k ≠ i → (connected t i k).ref = (t k).ref := by
    intro k hk
    simp only [happ]
    rw [if_neg fun hn => hk hn.1]
  have hown : (connected t i i).ref = if (t i).peer = none then 1 else 2 := by
    simp only [happ, true_and]
    cases hp : (t i).peer with
    | none =>
      rw [if_neg (hnone hp).2, (hnone hp).1, if_pos rfl]
    | some j =>
      obtain ⟨_, hr, hs⟩ := hpeer j hp
      rw [if_pos hs, hr, if_neg (by simp), inc_small (by decide)]
  have hlive : ∀ k, (connected t i k).ref ≠ 0 → (t k).ref ≠ 0 := by
    intro k hk
    by_cases hki : k = i
    · rw [hki]
      exact h.used hi
    · rwa [hkeep k hki] at hk
  have hback : ∀ k, (t k).ref ≠ 0 → (connected t i k).ref ≠ 0 := by
    intro k hk
    by_cases hki : k = i
    · rw [hki, hown]
      split <;> omega
    · rwa [hkeep k hki]
  refine ⟨fun k hk => h.asleep k hk.1, ?_, ?_, ?_, ?_, ?_, ?_, ?_, ?_, ?_, ?_⟩
  · intro k hk
    have hki : k ≠ i := fun he => hk (he ▸ hi)
    rw [hkeep k hki]
    simp only [happ]
    exact h.closed k hk
  · intro k hk hp
    simp only [happ] at hp
    have ha := h.alone k hk hp
    refine ⟨?_, by simpa only [happ] using ha.2⟩
    by_cases hki : k = i
    · rw [hki] at hp ⊢
      rw [hown, if_pos hp]
    · rw [hkeep k hki]
      exact ha.1
  · intro k m hk hp
    have hpair := h.paired k m (hlive k hk) (by simpa only [happ] using hp)
    refine ⟨hpair.1, hback m hpair.2.1, ?_⟩
    simpa only [happ] using hpair.2.2
  · intro k m hk hp hm
    have hp' : (t k).peer = some m := by simpa only [happ] using hp
    by_cases hki : k = i
    · refine ⟨fun _ => ?_, fun hn => absurd hki hn.2⟩
      rw [hki] at hp' ⊢
      rw [hown, if_neg (by rw [hp']; simp)]
    · have hb := h.both k m hk hp' hm
      rw [hkeep k hki]
      simp only [happ, ne_eq, hki, not_false_eq_true, and_true]
      exact hb
  · intro k m hk hp hm
    have hp' : (t k).peer = some m := by simpa only [happ] using hp
    have hl := h.left k m hk hp' hm
    have hki : k ≠ i := fun he => hl.2 (he ▸ hc)
    rw [hkeep k hki]
    exact ⟨hl.1, fun hn => hl.2 hn.1⟩
  · intro k c hk hm
    simp only [happ] at hm ⊢
    have hl := h.linked k c hk hm
    have hci : c ≠ i := fun he => hout k hk (he ▸ hm)
    rw [if_neg hci]
    exact ⟨⟨hl.1, hci⟩, hl.2⟩
  · simpa only [happ] using h.once
  · simpa only [happ] using h.apart
  · intro c ho hcc
    simp only [happ]
    split
    · rfl
    · rename_i hci
      exact h.quiet c ho fun hcc' => hcc ⟨hcc', hci⟩
  · intro c hcc
    simp only [happ]
    rw [if_neg hcc.2]
    exact h.units c hcc.1

theorem handShake_apply {t : Sockets} {n c : ℕ} (hcn : c ≠ n) (k : ℕ) :
    handShake t c n k = { t k with
      peer := if k = c then some n else if k = n then some c else (t k).peer
      state := if k = c ∨ k = n then .connected else (t k).state
      mate := if k = c then some (t n).serial else if k = n then some (t c).serial else (t k).mate
      ref := if k = n then inc (t k).ref else (t k).ref
      waitAccept := if k = c then (t k).waitAccept+1 else (t k).waitAccept } := by
  rw [handShake]
  by_cases hkc : k = c
  · subst hkc
    simp only [modify_apply, hcn, if_true, if_false, true_or]
  · by_cases hkn : k = n
    · subst hkn
      simp only [modify_apply, hkc, if_true, if_false, or_true]
    · simp only [modify_apply, hkc, hkn, if_false, or_self]

/-- A client is taken off the list of an open socket and connected with `n`. -/
theorem table_accepted {rest : List ℕ} (h : Table O C t) (hi : O i) (hl : (t i).connecting = c :: rest)
    (hn : O n) (hpn : (t n).peer = none) (hcn : ¬ C n) :
    Table O C (handShake (modify t i fun x => { x with connecting := rest }) c n) := by
  have ⟨hcc, hwc, hpc⟩ := h.linked i c hi (by rw [hl]; exact List.mem_cons_self)
  have hc := h.asleep c hcc
  have hne : c ≠ n := fun he => hcn (he ▸ hcc)
  have hnodup := h.once i hi
  rw [hl] at hnodup
  have ⟨hcr, hrest⟩ := List.nodup_cons.mp hnodup
  have happ : ∀ k, handShake (modify t i fun x => { x with connecting := rest }) c n k = { t k with
      connecting := if k = i then rest else (t k).connecting
      peer := if k = c then some n else if k = n then some c else (t k).peer
      state := if k = c ∨ k = n then .connected else (t k).state
      mate := if k = c then some (t n).serial else if k = n then some (t c).serial else (t k).mate
      ref := if k = n then inc (t k).ref else (t k).ref
      waitAccept := if k = c then (t k).waitAccept+1 else (t k).waitAccept } := by
    have hone : ∀ k, modify t i (fun x => { x with connecting := rest }) k =
        { t k with connecting := if k = i then rest else (t k).connecting } := by
      intro k
      rw [modify_apply]
      split <;> rfl
    intro k
    rw [handShake_apply hne]
    simp only [hone]
  have hrn := (h.alone n hn hpn).1
  have hrc := (h.alone c hc hpc).1
  have hincn : inc (t n).ref = 2 := by rw [hrn, inc_small (by decide)]
  -- Nobody else has one of the two as its peer.
  have hthird : ∀ {k m}, (t k).ref ≠ 0 → (t k).peer = some m → k ≠ c ∧ k ≠ n ∧ m ≠ c ∧ m ≠ n := by
    intro k m hr hp
    refine ⟨fun he => ?_, fun he => ?_, h.partner hr hp (.inr hpc), h.partner hr hp (.inr hpn)⟩
    · rw [he, hpc] at hp
      cases hp
    · rw [he, hpn] at hp
      cases hp
  have hsub : ∀ k d, d ∈ (if k = i then rest else (t k).connecting) → d ∈ (t k).connecting := by
    intro k d hd
    split at hd
    · rename_i hk
      rw [hk, hl]
      exact List.mem_cons_of_mem _ hd
    · exact hd
  have hgone : ∀ k d, O k → d ∈ (if k = i then rest else (t k).connecting) → d ≠ c := by
    intro k d hk hd he
    split at hd
    · exact hcr (he ▸ hd)
    · rename_i hki
      exact hki (h.apart k i c hk hi (he ▸ hd) (by rw [hl]; exact List.mem_cons_self))
  generalize handShake (modify t i fun x => { x with connecting := rest }) c n = t' at happ ⊢
  have hpeers : ∀ {k m}, (t' k).peer = some m → (k = c ∧ m = n) ∨ (k = n ∧ m = c) ∨
      (k ≠ c ∧ k ≠ n ∧ (t k).peer = some m) := by
    intro k m hp
    simp only [happ] at hp
    by_cases hkc : k = c
    · rw [if_pos hkc] at hp
      exact .inl ⟨hkc, (Option.some.inj hp).symm⟩
    · by_cases hkn : k = n
      · rw [if_neg hkc, if_pos hkn] at hp
        exact .inr (.inl ⟨hkn, (Option.some.inj hp).symm⟩)
      · rw [if_neg hkc, if_neg hkn] at hp
        exact .inr (.inr ⟨hkc, hkn, hp⟩)
  have hlive : ∀ {k}, k ≠ n → (t' k).ref = (t k).ref := by
    intro k hk
    simp only [happ, if_neg hk]
  have hown : (t' n).ref = 2 := by simp only [happ, if_true, hincn]
  refine ⟨h.asleep, ?_, ?_, ?_, ?_, ?_, ?_, ?_, ?_, ?_, ?_⟩
  · intro k hk
    have hkn : k ≠ n := fun he => hk (he ▸ hn)
    have hkc : k ≠ c := fun he => hk (he ▸ hc)
    rw [hlive hkn]
    simp only [happ, if_neg hkc, if_neg hkn]
    exact h.closed k hk
  · intro k hk hp
    simp only [happ] at hp ⊢
    split at hp
    · cases hp
    · rename_i hkc
      split at hp
      · cases hp
      · rename_i hkn
        rw [if_neg hkn, if_neg (by tauto)]
        exact h.alone k hk hp
  · intro k m hr hp
    rcases hpeers hp with ⟨hkc, hmn⟩ | ⟨hkn, hmc⟩ | ⟨hkc, hkn, hp⟩
    · rw [hkc, hmn, hown]
      simp only [happ, if_true, true_or, if_neg hne.symm, hne, ne_eq, not_false_eq_true]
      exact ⟨trivial, by decide, trivial, trivial, by decide⟩
    · rw [hkn, hmc, hlive hne, hrc]
      simp only [happ, if_true, if_false, or_true, hne.symm, ne_eq, not_false_eq_true]
      exact ⟨trivial, by decide, trivial, trivial, by decide⟩
    · rw [hlive hkn] at hr
      have ⟨_, _, hmc, hmn⟩ := hthird hr hp
      have hpair := h.paired k m hr hp
      rw [hlive hmn]
      simp only [happ, hkc, hkn, hmc, hmn, or_self, if_false]
      exact hpair
  · intro k m hk hp hm
    rcases hpeers hp with ⟨hkc, hmn⟩ | ⟨hkn, hmc⟩ | ⟨hkc, hkn, hp⟩
    · rw [hkc, hlive hne]
      refine ⟨fun hn => absurd hcc hn, fun _ => ⟨hrc, ?_⟩⟩
      simp only [happ, true_or, if_true]
    · rw [hkn]
      exact ⟨fun _ => hown, fun hc' => absurd hc' hcn⟩
    · rw [hlive hkn]
      simp only [happ, hkc, hkn, or_self, if_false]
      exact h.both k m hk hp hm
  · intro k m hk hp hm
    rcases hpeers hp with ⟨hkc, hmn⟩ | ⟨hkn, hmc⟩ | ⟨hkc, hkn, hp⟩
    · exact absurd (hmn ▸ hn) hm
    · exact absurd (hmc ▸ hc) hm
    · rw [hlive hkn]
      exact h.left k m hk hp hm
  · intro k d hk hd
    simp only [happ] at hd
    have hdc := hgone k d hk hd
    have hlink := h.linked k d hk (hsub k d hd)
    have hdn : d ≠ n := fun he => hcn (he ▸ hlink.1)
    simp only [happ, if_neg hdc, if_neg hdn]
    exact hlink
  · intro k hk
    simp only [happ]
    split
    · exact hrest
    · exact h.once k hk
  · intro k m d hk hm hdk hdm
    simp only [happ] at hdk hdm
    exact h.apart k m d hk hm (hsub k d hdk) (hsub m d hdm)
  · intro d hd hdc
    have hne' : d ≠ c := fun he => hdc (he ▸ hcc)
    simp only [happ, if_neg hne']
    exact h.quiet d hd hdc
  · intro d hd
    simp only [happ]
    split
    · rename_i hdc
      rw [hdc, hwc]
    · exact h.units d hd

/-- A socket whose peer does not connect any more is closed. -/
theorem table_close (h : Table O C t) (hi : O i) (hci : ¬ C i)
    (hpc : ∀ j, (t i).peer = some j → ¬ C j) :
    Table (fun k => O k ∧ k ≠ i) C (release t i) := by
  have happ : ∀ k, release t i k =
      left (t k) (t i) (k = i) ((t i).peer = some k) ((t i).connecting.count k) :=
    release_apply t i
  have hne : ∀ {k}, (t i).peer = some k → k ≠ i := fun hp he => (h.back hi hp).1 he.symm
  have hside : ∀ {k}, k ≠ i → (t i).peer ≠ some k → (release t i k).ref = (t k).ref ∧
      (release t i k).state = (t k).state := by
    intro k hki hpk
    simp only [happ, left, hki, hpk, if_false, false_and, or_self]
    exact ⟨trivial, trivial⟩
  have hpeer : ∀ k, (release t i k).peer = (t k).peer := fun k => by simp only [happ, left]
  have hmate : ∀ k, (release t i k).mate = (t k).mate := fun k => by simp only [happ, left]
  have hserial : ∀ k, (release t i k).serial = (t k).serial := fun k => by simp only [happ, left]
  have hlist : ∀ k, (release t i k).connecting = (t k).connecting := fun k => by simp only [happ, left]
  have hwait : ∀ k, (release t i k).waitAccept = (t k).waitAccept+(t i).connecting.count k :=
    fun k => by simp only [happ, left]
  have hother : ∀ {k}, k ∉ (t i).connecting → (release t i k).waitAccept = (t k).waitAccept := by
    intro k hk
    rw [hwait, List.count_eq_zero_of_not_mem hk, Nat.add_zero]
  have hunconn : ∀ {k}, (t k).state ≠ .unconnected → (release t i k).state ≠ .unconnected := by
    intro k hk
    simp only [happ, left]
    split
    · decide
    · exact hk
  -- The references of the two sides.
  have hown : (release t i i).ref = dec (t i).ref := by
    have hnot : (t i).peer ≠ some i := fun hp => hne hp rfl
    simp only [happ, left, hnot, if_true, if_false]
  have hmine : ∀ {k}, (t i).peer = some k → (release t i k).ref = dec (t k).ref := by
    intro k hp
    simp only [happ, left, hp, hne hp, if_true, if_false]
  have hlive : ∀ {k}, (release t i k).ref ≠ 0 → (t k).ref ≠ 0 := by
    intro k hr
    by_cases hki : k = i
    · rw [hki]
      exact h.used hi
    · by_cases hp : (t i).peer = some k
      · exact (h.back hi hp).2.1
      · rwa [(hside hki hp).1] at hr
  have hdec1 : dec 1 = 0 := dec_succ (r := 0) (by decide)
  have hdec2 : dec 2 = 1 := dec_succ (r := 1) (by decide)
  have hrefs : ∀ {k}, (t i).peer = some k →
      (O k → (release t i i).ref = 1 ∧ (release t i k).ref = 1) ∧
        (¬ O k → (release t i i).ref = 0 ∧ (release t i k).ref = 0) := by
    intro k hp
    obtain ⟨_, hrk, hback⟩ := h.back hi hp
    constructor
    · intro hk
      rw [hown, hmine hp, ((h.both i k hi hp hk).1 hci), (h.both k i hk hback hi).1 (hpc k hp)]
      exact ⟨hdec2, hdec2⟩
    · intro hk
      have h1 : (t k).ref = 1 := by
        rcases h.closed k hk with hz | ⟨h1, _⟩
        · exact absurd hz hrk
        · exact h1
      rw [hown, hmine hp, (h.left i k hi hp hk).1, h1]
      exact ⟨hdec1, hdec1⟩
  refine ⟨?_, ?_, ?_, ?_, ?_, ?_, ?_, ?_, ?_, ?_, ?_⟩
  · exact fun k hk => ⟨h.asleep k hk, fun he => hci (he ▸ hk)⟩
  · intro k hk
    rw [hpeer]
    by_cases hki : k = i
    · rw [hki]
      cases hp : (t i).peer with
      | none =>
        rw [hown, (h.alone i hi hp).1, hdec1]
        exact .inl rfl
      | some j =>
        by_cases hj : O j
        · exact .inr ⟨((hrefs hp).1 hj).1, j, rfl, hj, hne hp⟩
        · exact .inl ((hrefs hp).2 hj).1
    · have hko : ¬ O k := fun ho => hk ⟨ho, hki⟩
      by_cases hp : (t i).peer = some k
      · exact .inl ((hrefs hp).2 hko).2
      · rw [(hside hki hp).1]
        rcases h.closed k hko with hz | ⟨h1, j, hpj, hj⟩
        · exact .inl hz
        · refine .inr ⟨h1, j, hpj, hj, fun he => ?_⟩
          have hr : (t k).ref ≠ 0 := by omega
          have hback := (h.paired k j hr hpj).2.2.1
          rw [he] at hback
          exact hp hback
  · rintro k ⟨hk, hki⟩ hp
    rw [hpeer] at hp
    have hnot : (t i).peer ≠ some k := fun hpk => by
      rw [(h.back hi hpk).2.2] at hp
      cases hp
    rw [(hside hki hnot).1, (hside hki hnot).2]
    exact h.alone k hk hp
  · intro k m hr hp
    rw [hpeer] at hp
    obtain ⟨hkm, hrm, hback, hmk, hst⟩ := h.paired k m (hlive hr) hp
    refine ⟨hkm, ?_, by rw [hpeer, hback], by rw [hmate, hserial, hmk], hunconn hst⟩
    by_cases hki : k = i
    · rw [hki] at hp hr
      by_cases hm : O m
      · rw [((hrefs hp).1 hm).2]
        exact one_ne_zero
      · exact absurd ((hrefs hp).2 hm).1 hr
    · by_cases hmi : m = i
      · rw [hmi] at hback ⊢
        by_cases hk : O k
        · rw [((hrefs hback).1 hk).1]
          exact one_ne_zero
        · exact absurd ((hrefs hback).2 hk).2 hr
      · have hnot : (t i).peer ≠ some m := by
          intro hpm
          have hmb := (h.back hi hpm).2.2
          rw [hback] at hmb
          exact hki (Option.some.inj hmb)
        rwa [(hside hmi hnot).1]
  · rintro k m ⟨hk, hki⟩ hp ⟨hm, hmi⟩
    rw [hpeer] at hp
    have hnot : (t i).peer ≠ some k := by
      intro hpk
      have hback := (h.back hi hpk).2.2
      rw [hp] at hback
      exact hmi (Option.some.inj hback)
    rw [(hside hki hnot).1, (hside hki hnot).2]
    exact h.both k m hk hp hm
  · rintro k m ⟨hk, hki⟩ hp hm
    rw [hpeer] at hp
    by_cases hpk : (t i).peer = some k
    · exact ⟨((hrefs hpk).1 hk).2, hpc k hpk⟩
    · rw [(hside hki hpk).1]
      refine h.left k m hk hp fun ho => hm ⟨ho, fun he => ?_⟩
      have hback := (h.back hk hp).2.2
      rw [he] at hback
      exact hpk hback
  · rintro k c ⟨hk, hki⟩ hc
    rw [hlist] at hc
    obtain ⟨hcc, hw, hp⟩ := h.linked k c hk hc
    rw [hpeer, hother fun hm => hki (h.apart k i c hk hi hc hm)]
    exact ⟨hcc, hw, hp⟩
  · rintro k ⟨hk, _⟩
    rw [hlist]
    exact h.once k hk
  · rintro k m c ⟨hk, _⟩ ⟨hm, _⟩ hck hcm
    rw [hlist] at hck hcm
    exact h.apart k m c hk hm hck hcm
  · rintro c ⟨hc, _⟩ hcc
    rw [hother fun hm => hcc (h.linked i c hi hm).1]
    exact h.quiet c hc hcc
  · intro c hcc
    by_cases hm : c ∈ (t i).connecting
    · rw [hwait, (h.linked i c hi hm).2.1, List.count_eq_one_of_mem (h.once i hi) hm]
    · rw [hother hm]
      exact h.units c hcc

end Table

/-! ## Runs -/

/-- A socket is connected by one call at a time, the socket of an `accept` has no
peer before it returns, and a write goes to the peer of its socket. -/
structure Lives (s : State) : Prop where
  files : Files s
  table : Table s.Opened s.Connecting s.sockets
  single : ∀ p q f g, s.call p = .connecting f → s.call q = .connecting g →
    s.file f = s.file g → p = q
  accepting : ∀ p f g, s.call p = .accepting f g → (s.sockets (s.file g)).peer = none
  writing : ∀ p f target, s.call p = .writing f target →
    ∃ j, target = some j ∧ (s.sockets (s.file f)).peer = some j

section Calls

variable {s : State} {p f g i : ℕ} {c : Call}

/-- Neither the call before nor the one after is a `connect`. -/
theorem connecting_same (hb : ∀ f, s.call p ≠ .connecting f) (hc : ∀ f, c ≠ .connecting f) :
    (s.setCall p c).Connecting i ↔ s.Connecting i := by
  constructor
  · intro ⟨q, f, hq, he⟩
    by_cases hqp : q = p
    · rw [hqp, setCall_same] at hq
      exact absurd hq (hc f)
    · rw [setCall_other s c hqp] at hq
      exact ⟨q, f, hq, he⟩
  · intro ⟨q, f, hq, he⟩
    have hqp : q ≠ p := fun hp => hb f (hp ▸ hq)
    exact ⟨q, f, by rw [setCall_other s c hqp, hq], he⟩

theorem connecting_sleep (hidle : s.call p = .idle) :
    (s.setCall p (.connecting f)).Connecting i ↔ s.Connecting i ∨ i = s.file f := by
  constructor
  · intro ⟨q, g, hq, he⟩
    by_cases hqp : q = p
    · rw [hqp, setCall_same] at hq
      have hgf := Call.connecting.inj hq
      rw [hgf]
      exact .inr he.symm
    · rw [setCall_other s _ hqp] at hq
      exact .inl ⟨q, g, hq, he⟩
  · rintro (⟨q, g, hq, he⟩ | hi)
    · have hqp : q ≠ p := by
        intro hp
        rw [hp, hidle] at hq
        cases hq
      exact ⟨q, g, by rw [setCall_other s _ hqp, hq], he⟩
    · exact ⟨p, f, setCall_same s p _, hi.symm⟩

theorem connecting_wake (hp : s.call p = .connecting f)
    (hone : ∀ q g, s.call q = .connecting g → s.file g = s.file f → q = p) :
    (s.setCall p .idle).Connecting i ↔ s.Connecting i ∧ i ≠ s.file f := by
  constructor
  · intro ⟨q, g, hq, he⟩
    have hqp : q ≠ p := by
      intro hqp
      rw [hqp, setCall_same] at hq
      cases hq
    rw [setCall_other s _ hqp] at hq
    exact ⟨⟨q, g, hq, he⟩, fun hi => hqp (hone q g hq (he.trans hi))⟩
  · intro ⟨⟨q, g, hq, he⟩, hi⟩
    have hqp : q ≠ p := by
      intro hqp
      rw [hqp, hp] at hq
      exact hi (Call.connecting.inj hq ▸ he.symm)
    exact ⟨q, g, by rw [setCall_other s _ hqp, hq], he⟩

/-- The socket of an `accept` does not connect: no other process knows it. -/
theorem accepting_quiet (h : Files s) (hp : s.call p = .accepting f g) : ¬ s.Connecting (s.file g) := by
  intro ⟨q, k, hq, he⟩
  have ⟨_, hg, _, hone⟩ := h.accepting p f g hp
  have hk := h.connecting q k hq
  have hkg := h.one q p k g hk hg he
  have hqp := hone q (hkg ▸ hk)
  rw [hqp, hp] at hq
  cases hq

/-- The sockets of two calls of `accept` are two. -/
theorem accepting_other {q f' g' : ℕ} (h : Files s) (hp : s.call p = .accepting f g)
    (hq : s.call q = .accepting f' g') (he : s.file g' = s.file g) : q = p := by
  have ⟨_, hg, _, hone⟩ := h.accepting p f g hp
  have hg' := (h.accepting q f' g' hq).2.1
  have hgg := h.one q p g' g hg' hg he
  exact hone q (hgg ▸ hg')

/-- The table changes and one process goes on. -/
theorem Lives.change {t : Sockets} {n : ℕ} (h : Lives s)
    (hf : Files ({ s with sockets := t, serials := n }.setCall p c))
    (ht : Table s.Opened ({ s with sockets := t, serials := n }.setCall p c).Connecting t)
    (hconn : ∀ f, c = .connecting f → ¬ s.Connecting (s.file f))
    (hacc : ∀ f g, c = .accepting f g → (t (s.file g)).peer = none)
    (hwri : ∀ f target, c = .writing f target → ∃ j, target = some j ∧ (t (s.file f)).peer = some j)
    (hnone : ∀ q f g, q ≠ p → s.call q = .accepting f g → (t (s.file g)).peer = none)
    (hpeer : ∀ i j, s.Opened i → (s.sockets i).peer = some j → (t i).peer = some j) :
    Lives ({ s with sockets := t, serials := n }.setCall p c) := by
  have hcall : ∀ q d, ({ s with sockets := t, serials := n }.setCall p c).call q = d →
      (q = p ∧ c = d) ∨ (q ≠ p ∧ s.call q = d) := by
    intro q d hd
    by_cases hq : q = p
    · rw [hq, setCall_same] at hd
      exact .inl ⟨hq, hd⟩
    · rw [setCall_other _ c hq] at hd
      exact .inr ⟨hq, hd⟩
  refine ⟨hf, ht, ?_, ?_, ?_⟩
  · intro q r f g hq hr he
    rcases hcall q _ hq with ⟨hqp, hcq⟩ | ⟨_, hq⟩ <;> rcases hcall r _ hr with ⟨hrp, hcr⟩ | ⟨_, hr⟩
    · rw [hqp, hrp]
    · exact absurd ⟨r, g, hr, he.symm⟩ (hconn f hcq)
    · exact absurd ⟨q, f, hq, he⟩ (hconn g hcr)
    · exact h.single q r f g hq hr he
  · intro q f g hq
    rcases hcall q _ hq with ⟨_, hcq⟩ | ⟨hqp, hq⟩
    · exact hacc f g hcq
    · exact hnone q f g hqp hq
  · intro q f target hq
    rcases hcall q _ hq with ⟨_, hcq⟩ | ⟨_, hq⟩
    · exact hwri f target hcq
    · have ⟨j, hj, hp⟩ := h.writing q f target hq
      exact ⟨j, hj, hpeer _ j ⟨q, f, h.files.writing q f target hq, rfl⟩ hp⟩

/-- Nobody's call changes, and no open socket gets or loses a peer. -/
theorem Lives.sockets {t : Sockets} {n : ℕ} (h : Lives s) (ht : Table s.Opened s.Connecting t)
    (hpeer : ∀ i, s.Opened i → (t i).peer = (s.sockets i).peer) :
    Lives { s with sockets := t, serials := n } := by
  refine ⟨h.files.sockets t n, ht, h.single, fun p f g hp => ?_, fun p f target hp => ?_⟩
  · have ho : s.Opened (s.file g) := ⟨p, g, (h.files.accepting p f g hp).2.1, rfl⟩
    exact (hpeer _ ho).trans (h.accepting p f g hp)
  · have ho : s.Opened (s.file f) := ⟨p, f, h.files.writing p f target hp, rfl⟩
    have ⟨j, hj, hpe⟩ := h.writing p f target hp
    exact ⟨j, hj, (hpeer _ ho).trans hpe⟩

/-- The descriptors change, but not which sockets are open. -/
theorem Lives.descriptors {fds : ℕ → List ℕ} {n : ℕ} (h : Lives s)
    (hf : Files { s with fds, procs := n })
    (ho : ∀ i, (∃ p f, f ∈ fds p ∧ s.file f = i) ↔ s.Opened i) :
    Lives { s with fds, procs := n } :=
  ⟨hf, h.table.congr ho (fun _ => Iff.rfl), h.single, h.accepting, h.writing⟩

end Calls

section Steps

variable {s s' : State} {e : Event} {p f i n : ℕ} {t : Sockets}

theorem Lives.used (h : Lives s) (i : ℕ) (ho : s.Opened i) : (s.sockets i).ref ≠ 0 := h.table.used ho

theorem lives_openFile (h : Lives s) (hp : p < s.procs) (ha : alloc s.sockets s.serials = some (i, t)) :
    Lives (s.openFile (create t i) p i) := by
  obtain ⟨_, hr, hother, x, hx, hr1, hst, hpe, hco, _⟩ := create_alloc ha
  have hno : ¬ s.Opened i := fun ho => h.used i ho hr
  have hw : (create t i i).waitAccept = 0 := by rw [create, modify_same]
  have hfile : ∀ {q f}, f ∈ s.fds q → (s.openFile (create t i) p i).file f = s.file f :=
    fun hf => file_openFile (h.files.fresh _ _ hf)
  have hsame : ∀ j, s.Opened j → create t i j = s.sockets j := fun j hj =>
    hother j fun he => hno (he ▸ hj)
  refine ⟨files_openFile h.files hp hno, ?_, ?_, ?_, ?_⟩
  · refine (table_new h.table hr hother (by rw [hx, hr1]) (by rw [hx, hst]) (by rw [hx, hpe])
      (by rw [hx, hco]) hw).congr (fun j => opened_openFile h.files) fun j => ?_
    constructor
    · rintro ⟨q, f, hq, he⟩
      exact ⟨q, f, hq, (hfile (h.files.connecting q f hq)).symm.trans he⟩
    · rintro ⟨q, f, hq, he⟩
      exact ⟨q, f, hq, (hfile (h.files.connecting q f hq)).trans he⟩
  · intro q r f g hq hr he
    rw [hfile (h.files.connecting q f hq), hfile (h.files.connecting r g hr)] at he
    exact h.single q r f g hq hr he
  · intro q f g hq
    have hg := (h.files.accepting q f g hq).2.1
    rw [hfile hg]
    change (create t i (s.file g)).peer = none
    rw [hsame _ ⟨q, g, hg, rfl⟩]
    exact h.accepting q f g hq
  · intro q f target hq
    have hf := h.files.writing q f target hq
    obtain ⟨j, hj, hpj⟩ := h.writing q f target hq
    refine ⟨j, hj, ?_⟩
    rw [hfile hf]
    change (create t i (s.file f)).peer = some j
    rw [hsame _ ⟨q, f, hf, rfl⟩]
    exact hpj

/-- A socket for which there is no file is free again. -/
theorem lives_giveUp (h : Lives s) (ha : alloc s.sockets s.serials = some (i, t)) :
    Lives (s.giveUp (release (create t i) i)) := by
  have ⟨_, hr, hother, x, hx, hr1, hst, hpe, _⟩ := create_alloc ha
  have hrel := release_plain (t := create t i) (i := i) (by rw [hx, hst]) (by rw [hx, hpe])
  have hcon : (create t i i).connecting = [] := by rw [create, modify_same]
  have hsame : ∀ j, j ≠ i → release (create t i) i j = s.sockets j := by
    intro j hj
    simp only [hrel, hcon, List.count_nil, Nat.add_zero, if_neg hj]
    exact hother j hj
  have hzero : (release (create t i) i i).ref = 0 := by
    simp only [hrel, if_true, hx, hr1]
    exact dec_succ (r := 0) (by decide)
  refine h.sockets (table_free h.table hr hsame hzero) fun j hj => ?_
  rw [hsame j fun he => h.used i (he ▸ hj) hr]

theorem lives_accept (h : Lives s) (hu : s.Uses p f)
    (ha : alloc s.sockets s.serials = some (n, t)) :
    Lives ((s.openFile (create t n) p n).setCall p (.accepting f s.files)) := by
  have hp := h.files.running hu.2
  have hopen := lives_openFile h hp ha
  have hidle : (s.openFile (create t n) p n).call p = .idle := hu.1
  have hmem : s.files ∈ (s.openFile (create t n) p n).fds p := mem_openFile.mpr (.inr ⟨rfl, rfl⟩)
  have hnew : (create t n n).peer = none := by rw [create, modify_same]
  refine hopen.change ?_ ?_ ?_ ?_ ?_ ?_ ?_
  · refine files_setCall hopen.files hp (fun _ hc => Call.noConfusion hc) ?_
      (fun _ _ hc => Call.noConfusion hc)
    intro f' g hc
    cases hc
    refine ⟨mem_openFile.mpr (.inl hu.2), hmem, Nat.ne_of_lt (h.files.fresh p f hu.2), fun q hq => ?_⟩
    rcases mem_openFile.mp hq with hq | ⟨hq, _⟩
    · exact absurd (h.files.fresh q _ hq) (Nat.lt_irrefl _)
    · exact hq
  · refine hopen.table.congr (fun _ => Iff.rfl) fun j => connecting_same ?_ ?_
    · intro g hg
      rw [hidle] at hg
      cases hg
    · exact fun _ hc => Call.noConfusion hc
  · exact fun _ hc => Call.noConfusion hc
  · intro f' g hc
    cases hc
    rw [file_opened]
    exact hnew
  · exact fun _ _ hc => Call.noConfusion hc
  · exact fun q f g _ hq => hopen.accepting q f g hq
  · exact fun i j _ hj => hj

theorem lives_connect (h : Lives s) (hu : s.Uses p f) {j : ℕ} (hst : (s.sockets (s.file f)).state = .unconnected)
    (hc : ¬ s.Connecting (s.file f)) :
    Lives ({ s with sockets := modify s.sockets j fun x => { x with
      connecting := x.connecting ++ [s.file f] } }.setCall p (.connecting f)) := by
  have ho : s.Opened (s.file f) := ⟨p, f, hu.2, rfl⟩
  have hpeer : ∀ i, (modify s.sockets j (fun x => { x with
      connecting := x.connecting ++ [s.file f] }) i).peer = (s.sockets i).peer := by
    intro i
    rw [modify_apply]
    split <;> rfl
  refine h.change (n := s.serials) ?_ ?_ ?_ ?_ ?_ ?_ ?_
  · refine (files_setCall h.files (h.files.running hu.2) (c := .connecting f) ?_ ?_ ?_).sockets _ s.serials
    · intro g hg
      cases hg
      exact hu.2
    · exact fun _ _ hc => Call.noConfusion hc
    · exact fun _ _ hc => Call.noConfusion hc
  · exact (table_connect h.table ho hc hst).congr (fun _ => Iff.rfl) fun i => connecting_sleep hu.1
  · intro g hg
    cases hg
    exact hc
  · exact fun _ _ hc => Call.noConfusion hc
  · exact fun _ _ hc => Call.noConfusion hc
  · exact fun q f g _ hq => (hpeer _).trans (h.accepting q f g hq)
  · exact fun i k _ hk => (hpeer i).trans hk

theorem lives_resume (h : Lives s) (hc : s.call p = .connecting f)
    (hw : 0 < (s.sockets (s.file f)).waitAccept) :
    Lives ({ s with sockets := connected s.sockets (s.file f) }.setCall p .idle) := by
  have hp := h.files.running (h.files.connecting p f hc)
  have hpeer : ∀ i, (connected s.sockets (s.file f) i).peer = (s.sockets i).peer := by
    intro i
    rw [connected, modify_apply]
    split
    · split <;> rfl
    · rfl
  refine h.change (n := s.serials) ?_ ?_ ?_ ?_ ?_ ?_ ?_
  · exact (files_idle h.files hp).sockets _ s.serials
  · exact (table_resume h.table ⟨p, f, hc, rfl⟩ hw).congr (fun _ => Iff.rfl) fun i =>
      connecting_wake hc fun q g hq he => h.single q p g f hq hc he
  · exact fun _ hc => Call.noConfusion hc
  · exact fun _ _ hc => Call.noConfusion hc
  · exact fun _ _ hc => Call.noConfusion hc
  · exact fun q f g _ hq => (hpeer _).trans (h.accepting q f g hq)
  · exact fun i k _ hk => (hpeer i).trans hk

theorem lives_accepted {g c : ℕ} {rest : List ℕ} (h : Lives s) (hc : s.call p = .accepting f g)
    (hl : (s.sockets (s.file f)).connecting = c :: rest) :
    Lives ({ s with
      sockets := handShake (modify s.sockets (s.file f) fun x => { x with connecting := rest })
        c (s.file g) }.setCall p .idle) := by
  have ⟨hf, hg, _⟩ := h.files.accepting p f g hc
  have ho : s.Opened (s.file f) := ⟨p, f, hf, rfl⟩
  have hog : s.Opened (s.file g) := ⟨p, g, hg, rfl⟩
  have hquiet := accepting_quiet h.files hc
  have hpg := h.accepting p f g hc
  have ⟨hcc, _, hpc⟩ := h.table.linked _ c ho (by rw [hl]; exact List.mem_cons_self)
  have hne : c ≠ s.file g := fun he => hquiet (he ▸ hcc)
  have hpeer : ∀ i, (handShake (modify s.sockets (s.file f) fun x => { x with connecting := rest })
      c (s.file g) i).peer =
        if i = c then some (s.file g) else if i = s.file g then some c else (s.sockets i).peer := by
    intro i
    rw [handShake_apply hne]
    simp only [modify_apply]
    by_cases hif : i = s.file f
    · rw [if_pos hif]
    · rw [if_neg hif]
  refine h.change (n := s.serials) ?_ ?_ ?_ ?_ ?_ ?_ ?_
  · exact (files_idle h.files (h.files.running hf)).sockets _ s.serials
  · refine (table_accepted h.table ho hl hog hpg hquiet).congr (fun _ => Iff.rfl) fun i =>
      connecting_same ?_ fun _ hc => Call.noConfusion hc
    intro k hk
    have hk' : s.call p = .connecting k := hk
    rw [hc] at hk'
    cases hk'
  · exact fun _ hc => Call.noConfusion hc
  · exact fun _ _ hc => Call.noConfusion hc
  · exact fun _ _ hc => Call.noConfusion hc
  · intro q f' g' hqp hq
    have hkc : s.file g' ≠ c := fun he => accepting_quiet h.files hq (he ▸ hcc)
    have hkn : s.file g' ≠ s.file g := fun he => hqp (accepting_other h.files hc hq he)
    rw [hpeer, if_neg hkc, if_neg hkn]
    exact h.accepting q f' g' hq
  · intro i j _ hj
    have hic : i ≠ c := by
      intro he
      rw [he, hpc] at hj
      cases hj
    have hin : i ≠ s.file g := by
      intro he
      rw [he, hpg] at hj
      cases hj
    rw [hpeer, if_neg hic, if_neg hin]
    exact hj

/-- A socket whose peer does not connect any more loses its last descriptor. -/
theorem lives_close (h : Lives s) (hu : s.Uses p f)
    (hlast : ∀ q, f ∉ Function.update s.fds p ((s.fds p).erase f) q)
    (hpc : ∀ j, (s.sockets (s.file f)).peer = some j → ¬ s.Connecting j) :
    Lives { s with
      sockets := release s.sockets (s.file f)
      fds := Function.update s.fds p ((s.fds p).erase f) } := by
  have ho : s.Opened (s.file f) := ⟨p, f, hu.2, rfl⟩
  have hkept : ∀ {q g}, g ∈ s.fds q → g ≠ f →
      g ∈ Function.update s.fds p ((s.fds p).erase f) q := by
    intro q g hg hne
    by_cases hq : q = p
    · rw [hq, Function.update_self]
      rw [hq] at hg
      exact (List.mem_erase_of_ne hne).mpr hg
    · rwa [Function.update_of_ne hq]
  have hci : ¬ s.Connecting (s.file f) := by
    rintro ⟨q, g, hq, he⟩
    have hg := h.files.connecting q g hq
    have hgf := h.files.one q p g f hg hu.2 he
    have hqp : q ≠ p := by
      intro hqp
      rw [hqp, hu.1] at hq
      cases hq
    refine hlast q ?_
    rw [Function.update_of_ne hqp]
    exact hgf ▸ hg
  have hpeer : ∀ i, (release s.sockets (s.file f) i).peer = (s.sockets i).peer := by
    intro i
    rw [release_apply]
    simp only [left]
  have hfiles := files_descriptors h.files hu.1 (l := (s.fds p).erase f) fun g hg =>
    List.mem_of_mem_erase hg
  refine ⟨hfiles.sockets _ s.serials, ?_, h.single, ?_, ?_⟩
  · refine (table_close h.table ho hci hpc).congr (fun i => ?_) fun _ => Iff.rfl
    constructor
    · rintro ⟨q, g, hg, he⟩
      refine ⟨⟨q, g, mem_closed hg, he⟩, fun hi => ?_⟩
      have hgf := h.files.one q p g f (mem_closed hg) hu.2 (he.trans hi)
      exact hlast q (hgf ▸ hg)
    · rintro ⟨⟨q, g, hg, he⟩, hi⟩
      exact ⟨q, g, hkept hg fun hgf => hi (he ▸ hgf ▸ rfl), he⟩
  · exact fun q f g hq => (hpeer _).trans (h.accepting q f g hq)
  · intro q g target hq
    obtain ⟨j, hj, hp⟩ := h.writing q g target hq
    exact ⟨j, hj, (hpeer _).trans hp⟩

theorem lives_step (h : Lives s) (ha : Allowed s e) (hs : Step s e s') : Lives s' := by
  have hfiles := files_step h.files h.used hs
  cases hs with
  | socket hp hidle hal => exact lives_openFile h hp hal
  | socketNoFile hp hidle hal => exact lives_giveUp h hal
  | socketNoFd hp hidle hal => exact ha.elim
  | @bind p f addr beyond t hu hb =>
    have hagree : ∀ i, Agree (s.sockets i) (t i) := by
      intro i
      rw [bindLocal] at hb
      split at hb
      · cases hb
      · rw [← Option.some.inj hb, modify_apply]
        split <;> exact ⟨rfl, rfl, rfl, rfl, rfl, rfl, rfl⟩
    exact h.sockets (table_agree h.table hagree) fun i _ => (hagree i).2.2.1
  | @listen p f hu =>
    have hagree : ∀ i, Agree (s.sockets i) (LocalSockets.listen s.sockets (s.file f) i) := by
      intro i
      rw [LocalSockets.listen]
      split
      · exact ⟨rfl, rfl, rfl, rfl, rfl, rfl, rfl⟩
      · rw [modify_apply]
        split <;> exact ⟨rfl, rfl, rfl, rfl, rfl, rfl, rfl⟩
    exact h.sockets (table_agree h.table hagree) fun i _ => (hagree i).2.2.1
  | @connect p f j addr beyond hu hj =>
    have hst : (s.sockets (s.file f)).state = .unconnected := by
      by_contra hst
      rw [connectTo, if_pos hst] at hj
      cases hj
    exact lives_connect h hu hst (ha (by rw [hj]; exact Option.some_ne_none j))
  | resume hc hw => exact lives_resume h hc hw
  | accept hu hl hal => exact lives_accept h hu hal
  | acceptNoFile hu hl hal => exact lives_giveUp h hal
  | acceptNoFd hu hl hal => exact ha.elim
  | accepted hc hl => exact lives_accepted h hc hl
  | @write p f hu =>
    refine h.change (t := s.sockets) (n := s.serials) hfiles ?_ ?_ ?_ ?_ ?_ ?_
    · refine h.table.congr (fun _ => Iff.rfl) fun i => connecting_same (fun g hg => ?_) fun _ hc => Call.noConfusion hc
      have hg' : s.call p = .connecting g := hg
      rw [hu.1] at hg'
      cases hg'
    · exact fun _ hc => Call.noConfusion hc
    · exact fun _ _ hc => Call.noConfusion hc
    · intro g target hc
      cases hc
      obtain ⟨j, hj⟩ := Option.ne_none_iff_exists'.mp ha
      exact ⟨j, hj, hj⟩
    · exact fun q f g _ hq => h.accepting q f g hq
    · exact fun i j _ hj => hj
  | @written p f target hc =>
    refine h.change (t := s.sockets) (n := s.serials) hfiles ?_ ?_ ?_ ?_ ?_ ?_
    · refine h.table.congr (fun _ => Iff.rfl) fun i => connecting_same (fun g hg => ?_) fun _ hc => Call.noConfusion hc
      have hg' : s.call p = .connecting g := hg
      rw [hc] at hg'
      cases hg'
    · exact fun _ hc => Call.noConfusion hc
    · exact fun _ _ hc => Call.noConfusion hc
    · exact fun _ _ hc => Call.noConfusion hc
    · exact fun q f g _ hq => h.accepting q f g hq
    · exact fun i j _ hj => hj
  | @dup p f hu =>
    refine h.descriptors (n := s.procs) hfiles fun i => ?_
    constructor
    · rintro ⟨q, g, hg, he⟩
      by_cases hq : q = p
      · rw [hq, Function.update_self] at hg
        rcases List.mem_cons.mp hg with hg | hg
        · exact ⟨p, f, hu.2, hg ▸ he⟩
        · exact ⟨p, g, hg, he⟩
      · rw [Function.update_of_ne hq] at hg
        exact ⟨q, g, hg, he⟩
    · rintro ⟨q, g, hg, he⟩
      refine ⟨q, g, ?_, he⟩
      by_cases hq : q = p
      · rw [hq, Function.update_self]
        exact List.mem_cons_of_mem _ (hq ▸ hg)
      · rwa [Function.update_of_ne hq]
  | @fork p hp hidle =>
    refine h.descriptors hfiles fun i => ?_
    constructor
    · rintro ⟨q, g, hg, he⟩
      by_cases hq : q = s.procs
      · rw [hq, Function.update_self] at hg
        exact ⟨p, g, hg, he⟩
      · rw [Function.update_of_ne hq] at hg
        exact ⟨q, g, hg, he⟩
    · rintro ⟨q, g, hg, he⟩
      have hq : q ≠ s.procs := fun hq => absurd (h.files.running hg) (by rw [hq]; exact Nat.lt_irrefl _)
      exact ⟨q, g, by rwa [Function.update_of_ne hq], he⟩
  | @closeShared p f r hu hr =>
    refine h.descriptors (n := s.procs) hfiles fun i => ?_
    constructor
    · rintro ⟨q, g, hg, he⟩
      exact ⟨q, g, mem_closed hg, he⟩
    · rintro ⟨q, g, hg, he⟩
      by_cases hgf : g = f
      · exact ⟨r, f, hr, hgf ▸ he⟩
      · refine ⟨q, g, ?_, he⟩
        by_cases hq : q = p
        · rw [hq, Function.update_self]
          exact (List.mem_erase_of_ne hgf).mpr (hq ▸ hg)
        · rwa [Function.update_of_ne hq]
  | closeLast hu hlast => exact lives_close h hu hlast (ha hlast)

end Steps

theorem lives_start {s : State} (h : Start s) : Lives s := by
  have hno : ∀ i, ¬ s.Opened i := by
    intro i ⟨p, f, hf, _⟩
    rw [h.fds p] at hf
    cases hf
  have hcall : ∀ p c, c ≠ Call.idle → s.call p ≠ c := fun p c hne hp => hne (hp.symm.trans (h.call p))
  have hnc : ∀ i, ¬ s.Connecting i := fun i ⟨p, f, hp, _⟩ => hcall p _ Call.noConfusion hp
  refine ⟨files_start h, ⟨?_, ?_, ?_, ?_, ?_, ?_, ?_, ?_, ?_, ?_, ?_⟩, ?_, ?_, ?_⟩
  · exact fun i hi => absurd hi (hnc i)
  · exact fun i _ => .inl (h.ref i)
  · exact fun i hi => absurd hi (hno i)
  · exact fun i j hi => absurd (h.ref i) hi
  · exact fun i j hi => absurd hi (hno i)
  · exact fun i j hi => absurd hi (hno i)
  · exact fun i c hi => absurd hi (hno i)
  · exact fun i hi => absurd hi (hno i)
  · exact fun i j c hi => absurd hi (hno i)
  · exact fun i hi => absurd hi (hno i)
  · exact fun i hi => absurd hi (hnc i)
  · exact fun p q f g hp => absurd hp (hcall p _ Call.noConfusion)
  · exact fun p f g hp => absurd hp (hcall p _ Call.noConfusion)
  · exact fun p f target hp => absurd hp (hcall p _ Call.noConfusion)

theorem lives_run {s : State} (h : Run Allowed s) : Lives s := by
  induction h with
  | start hs => exact lives_start hs
  | step _ ha hs ih => exact lives_step ih ha hs

theorem sound_lives {s : State} (h : Lives s) : Sound s := by
  have hcounted : ∀ i, InUse s i → (s.sockets i).ref ≠ 0 := by
    rintro i (ho | ⟨k, hk, hp⟩ | ⟨k, hk, hi⟩)
    · exact h.table.used ho
    · exact (h.table.paired k i hk hp).2.1
    · exact h.table.used (h.table.asleep i (h.table.linked k i hk hi).1)
  refine ⟨hcounted, fun i t ha hi => hcounted i hi (alloc_free ha).1, fun i => ?_, ?_⟩
  · exact Nat.lt_of_le_of_lt (h.table.small i) (by decide)
  · intro p f target hp
    have ⟨j, hj, hpe⟩ := h.writing p f target hp
    have ho : s.Opened (s.file f) := ⟨p, f, h.files.writing p f target hp, rfl⟩
    exact ⟨j, hj, hpe, (h.table.paired _ j (h.table.used ho) hpe).2.2.2.1⟩

/-- The listening process has a child with its descriptors. -/
def forked : State := { listening with
  fds := Function.update listening.fds 1 (listening.fds 0), procs := 2 }

/-- The child waits for its `connect`. -/
def waiting : State := ({ forked with
  sockets := modify forked.sockets 1 fun x => { x with
    connecting := x.connecting ++ [0] } }.setCall 1 (.connecting 0))

def accepting : State := (made waiting 2).setCall 0 (.accepting 1 2)

/-- `accept` has returned, and the child was not scheduled yet. -/
def met : State := ({ accepting with
  sockets := handShake (modify accepting.sockets 1 fun x => { x with connecting := [] })
    0 2 }.setCall 0 .idle)

theorem met_run : Run Allowed met := by
  have h0 : Run Allowed listening := listening_run (fun _ => trivial) trivial trivial
  have h1 : Run Allowed forked := h0.step (e := .fork 0) trivial (Step.fork (by decide) rfl)
  have hc : Allowed forked (.connect 1 0 name fun _ => false) := by
    intro _ ⟨p, f, hp, _⟩
    cases hp
  have h2 : Run Allowed waiting := by
    refine h1.step hc (Step.connect (p := 1) (f := 0) (j := 1) ⟨rfl, by decide⟩ ?_)
    rfl
  have h3 : Run Allowed accepting :=
    h2.step (e := .accept 0 1) trivial (Step.accept (n := 2) ⟨rfl, by decide⟩ ⟨rfl, rfl⟩ rfl)
  exact h3.step (e := .accepted 0) trivial (Step.accepted (f := 1) (g := 2) rfl rfl)

theorem run_mono {allowed allowed' : State → Event → Prop} {s : State}
    (h : ∀ s e, allowed s e → allowed' s e) (hr : Run allowed s) : Run allowed' s := by
  induction hr with
  | start hs => exact Run.start hs
  | step _ ha hs ih => exact ih.step (h _ _ ha) hs

end BabyOS.LocalLifetime
