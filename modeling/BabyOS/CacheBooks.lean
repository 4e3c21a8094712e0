import BabyOS.InodeCache

/-!
# Books of the inode cache

What a process has in hand is a book: its references, the inodes it has changed and not
yet written, the buffer it holds and the place in `put_inode`, `alloc_inode` and
`write_inode` where it is. An access may be made where its book allows it.
-/

set_option autoImplicit false

namespace BabyOS.CacheBooks
open BabyOS.AtomicPrograms BabyOS.AtomicPrograms.Program BabyOS.ByteWords
open BabyOS.FileSystem (DiskInode nDirect nIndirect maxFileSize blockSize maxInodeCache rootDev rootInum
  typeDir typeFile typeDev entrySize)
open BabyOS.InodeCache

/-! ## The book of a process -/

/-- The buffer of a block of inodes: taken for `alloc_inode` or `read_from_disk`, or for
an inode, before and after its record is written. -/
inductive Buffer
  | none
  | block (n : ℕ)
  | inode (i n : ℕ)
  | saved (i n : ℕ)

/-- `known` is the inode that was taken last, with its number, until it is read or set up;
`making` the number between the record that `alloc_inode` writes and its `get_inode`. -/
structure Book where
  refs : List ℕ
  files : List ℕ
  dirty : List ℕ
  known : Option (ℕ × ℕ)
  writing : Option (ℕ × ℕ)
  freeing : Option ℕ
  buffer : Buffer
  making : Option ℕ

def blank : Book := ⟨[], [], [], none, none, none, .none, none⟩

def Buffer.save : Buffer → Buffer
  | .inode i n => .saved i n
  | b => b

/-- The root and the current directory are not read. -/
def fetched (known : Option (ℕ × ℕ)) (i inum : ℕ) : Origin → Option (ℕ × ℕ)
  | .entry _ _ | .alloc => some (i, inum)
  | .root | .cwd => known

def note (v : Book) : Action → Book
  | .hold n => { v with buffer := .block n }
  | .holdInode i n => { v with buffer := .inode i n }
  | .release _ => { v with buffer := .none }
  | .load _ _ => { v with buffer := .none, known := none }
  | .loaded _ => { v with known := none }
  | .take i inum o | .fresh i _ inum o =>
    { v with refs := i :: v.refs, known := fetched v.known i inum o, making := none }
  | .full _ => { v with making := none }
  | .put i | .lose i => { v with refs := v.refs.erase i }
  | .clear i => { v with dirty := i :: v.dirty, freeing := some i }
  | .forget i _ | .shrink i | .assign i _ _ | .links i _ => { v with dirty := i :: v.dirty }
  | .init i _ _ _ => { v with dirty := i :: v.dirty, known := none }
  | .erase i => { v with refs := v.refs.erase i, freeing := none, buffer := .none }
  | .save i => { v with dirty := v.dirty.filter (· ≠ i), buffer := v.buffer.save }
  | .make id _ => { v with making := some id }
  | .start i last => { v with writing := some (i, last) }
  | .grow i _ => { v with dirty := i :: v.dirty, writing := none }
  | .settle i => { v with dirty := v.dirty.filter (· ≠ i), writing := none }
  | .keep i => { v with refs := v.refs.erase i, files := i :: v.files }
  | .withdraw i => { v with refs := i :: v.refs, files := v.files.erase i }
  | _ => v

/-- A reference in hand, or behind a descriptor. -/
def Has (v : Book) (i : ℕ) : Prop := i ∈ v.refs ∨ i ∈ v.files

/-- Why an inode is taken. -/
def Reason (p : ℕ) (v : Book) (s : Cache) (i inum : ℕ) : Origin → Prop
  | .root => inum = rootInum
  | .cwd => i = s.cwd p
  | .entry d k => d ∈ v.refs ∧ inum = (s.entries (s.inodes d).inum k).1 ∧ inum ≠ 0
  | .alloc => v.making = some inum

/-- Between the parts of a call: no buffer is held, and no inode is freed, written or read. -/
def Free (v : Book) : Prop := v.buffer = .none ∧ v.freeing = none ∧ v.writing = none ∧ v.known = none

/-- Where an access may be made. -/
def may (p : ℕ) (v : Book) (s : Cache) : Action → Prop
  | .hold n => v.buffer = .none ∧ s.holder n = none
  | .holdInode i n => v.buffer = .none ∧ s.holder n = none ∧ n = inodeBlock (s.inodes i).inum ∧ Has v i ∧
      v.known = none
  | .release n => v.buffer = .block n ∨ ∃ i, v.buffer = .saved i n ∧ v.freeing = none
  | .load i id => v.buffer = .block (inodeBlock id) ∧ i ∈ v.refs ∧ v.known = some (i, id) ∧ v.freeing = none
  | .loaded i => (s.inodes i).valid = true ∧ ∃ id, v.known = some (i, id)
  | .take i inum o => Free v ∧ 0 < (s.inodes i).ref ∧ (s.inodes i).inum = inum ∧ Reason p v s i inum o
  | .fresh i dev inum o => Free v ∧ i < maxInodeCache ∧ (s.inodes i).ref = 0 ∧ dev = rootDev ∧
      s.cached dev inum = none ∧ Reason p v s i inum o
  | .put i => Free v ∧ i ∈ v.refs ∧ (s.inodes i).last = false
  | .clear i => Free v ∧ i ∈ v.refs ∧ (s.inodes i).last = true
  | .forget i _ | .shrink i => v.freeing = some i ∧ v.buffer = .none
  | .erase i => v.freeing = some i ∧ i ∈ v.refs ∧ ∃ n, v.buffer = .saved i n
  | .save i => (∃ n, v.buffer = .inode i n) ∧ v.known = none
  | .make id type => v.buffer = .block (inodeBlock id) ∧ (s.records id).type = 0 ∧ type ≠ 0 ∧
      v.freeing = none
  | .start _ _ => Free v ∧ v.dirty = []
  | .assign i k _ => ∃ last, v.writing = some (i, last) ∧ blockSize*k < last
  | .grow i last => v.writing = some (i, last) ∧ (s.inodes i).size.toNat < last
  | .settle i => ∃ last, v.writing = some (i, last) ∧ (last ≤ (s.inodes i).size.toNat ∨ v.dirty = [])
  | .links i _ => i ∈ v.refs ∧ v.writing = none ∧ v.freeing = none
  | .init i type _ _ => i ∈ v.refs ∧ v.writing = none ∧ v.freeing = none ∧ type ≠ 0 ∧ ∃ id, v.known = some (i, id)
  | .keep i | .lose i => Free v ∧ i ∈ v.refs
  | .withdraw i => Free v ∧ i ∈ v.files
  | _ => True

def rule (p : ℕ) (v : Book) (s : Cache) (e : Action) (s' : Cache) : Prop := may p v s e ∧ s' = e.apply p s

/-- What a process in a call relies on. -/
structure Relies (p : ℕ) (v : Book) (s : Cache) : Prop where
  lt : p < s.procs
  files : s.opened p = v.files
  used : ∀ i, Has v i → 0 < (s.inodes i).ref
  home : 0 < (s.inodes (s.cwd p)).ref
  rooted : ∀ i, 0 < (s.inodes i).ref → (s.inodes i).dev = rootDev

/-- `link` does not find the new name. -/
def Fair (e : Action) : Prop := ∀ i, e ≠ .linkExists i

/-! ## Paths -/

section Paths

variable {p : ℕ} {α β : Type} {refs files : List ℕ}

def Path (p : ℕ) (x : Prog α) (v : Book) (Q : α → Book → Prop) : Prop :=
  x.Along (fun v s e => Fair e ∧ Relies p v s) note (rule p) v Q

/-- A process that has references, and is not in the middle of anything. -/
def hand (refs files : List ℕ) : Book := ⟨refs, files, [], none, none, none, .none, none⟩

/-- From some references to others. -/
def Ends (p : ℕ) (x : Prog α) (refs files : List ℕ) (f : α → List ℕ) : Prop :=
  Path p x (hand refs files) fun a v => v = hand (f a) files

theorem ends_pure {a : α} {f : α → List ℕ} (h : refs = f a) : Ends p (pure a : Prog α) refs files f := by
  subst h
  exact rfl

theorem ends_stop {f : α → List ℕ} : Ends p (.stop : Prog α) refs files f := trivial

theorem ends_seq {x : Prog α} {g : α → List ℕ} {f : α → Prog β} {h : β → List ℕ}
    (hx : Ends p x refs files g) (hf : ∀ a, Ends p (f a) (g a) files h) : Ends p (x >>= f) refs files h := by
  apply along_seq hx
  rintro a v rfl
  exact hf a

theorem ends_ite {c : Prop} [Decidable c] {x y : Prog α} {f : α → List ℕ}
    (hx : c → Ends p x refs files f) (hy : ¬ c → Ends p y refs files f) :
    Ends p (if c then x else y) refs files f := by
  split
  next hc => exact hx hc
  next hc => exact hy hc

/-- One access by an event that does not depend on the state. -/
theorem path_act {e : Action} {v : Book} {Q : Unit → Book → Prop}
    (hmay : ∀ s, Fair e → Relies p v s → may p v s e) (hQ : Q () (note v e)) : Path p (act p e) v Q :=
  fun s _ ha => ⟨⟨hmay s ha.1 ha.2, rfl⟩, hQ⟩

theorem ends_act {e : Action} {refs' : List ℕ} (hmay : ∀ s, Relies p (hand refs files) s →
      may p (hand refs files) s e) (hnote : note (hand refs files) e = hand refs' files) :
    Ends p (act p e) refs files fun _ => refs' :=
  path_act (fun s _ hs => hmay s hs) hnote

/-! ## Plain accesses -/

/-- An access that the book does not note, and that may be made anywhere. -/
def Plain : Action → Prop
  | .quiet | .holdTable _ | .releaseTable _ | .lock _ | .unlock _ | .free _ | .wipe _ | .claim _ _ | .zero _
  | .fill _ _ _ | .entry _ _ _ | .name _ _ _ _ => True
  | _ => False

def PlainStep (p : ℕ) (s : Cache) (e : Action) (s' : Cache) : Prop := Plain e ∧ s' = e.apply p s

theorem note_plain {v : Book} {e : Action} (h : Plain e) : note v e = v := by
  cases e <;> first | rfl | cases h

theorem rule_plain {v : Book} {s s' : Cache} {e : Action} (h : PlainStep p s e s') : rule p v s e s' := by
  obtain ⟨he, rfl⟩ := h
  cases e <;> first | exact ⟨trivial, rfl⟩ | cases he

theorem path_plain {x : Prog α} {v : Book} (hx : x.Only (PlainStep p)) : Path p x v fun _ v' => v' = v :=
  along_only hx (fun _ _ _ h => ⟨note_plain h.1, rule_plain h⟩)

theorem ends_plain {x : Prog α} (hx : x.Only (PlainStep p)) : Ends p x refs files fun _ => refs :=
  path_plain hx

theorem ends_low {x : Prog α} {f : α → Prog β} {h : β → List ℕ} (hx : x.Only (PlainStep p))
    (hf : ∀ a, Ends p (f a) refs files h) : Ends p (x >>= f) refs files h :=
  ends_seq (ends_plain hx) hf

theorem path_low {x : Prog α} {f : α → Prog β} {v : Book} {Q : β → Book → Prop} (hx : x.Only (PlainStep p))
    (hf : ∀ a, Path p (f a) v Q) : Path p (x >>= f) v Q := by
  apply along_seq (path_plain hx)
  rintro a v rfl
  exact hf a

theorem only_look (f : Cache → α) : (look f : Prog α).Only (PlainStep p) := fun _ => ⟨⟨trivial, rfl⟩, trivial⟩

theorem only_pure (a : α) : (pure a : Prog α).Only (PlainStep p) := trivial

theorem only_choose {e : Cache → Action} {f : Cache → α} (he : ∀ s, Plain (e s)) :
    (choose p e f).Only (PlainStep p) := fun s => ⟨⟨he s, rfl⟩, trivial⟩

theorem only_act {e : Action} (he : Plain e) : (act p e).Only (PlainStep p) := only_choose (fun _ => he)

theorem only_wait {e : Action} {ready : Cache → Bool} (he : Plain e) : (wait p e ready).Only (PlainStep p) :=
  fun _ => ⟨⟨he, rfl⟩, trivial⟩

theorem only_lockInode (i : ℕ) : (lockInode p i).Only (PlainStep p) := only_wait trivial

theorem only_unlockInode (i : ℕ) : (unlockInode p i).Only (PlainStep p) := only_act trivial

theorem only_allocBlock (i : ℕ) : (allocBlock p i).Only (PlainStep p) := by
  apply only_bind (only_choose (fun s => by split <;> trivial))
  intro found
  cases found with
  | none => exact only_pure _
  | some b => exact only_bind (only_act trivial) (fun _ => only_pure _)

theorem only_freeEntry (a k : ℕ) : (freeEntry p a k).Only (PlainStep p) :=
  only_bind (only_look _) (fun _ => only_act trivial)

theorem only_forFrom {f : ℕ → Prog Unit} (hf : ∀ k, (f k).Only (PlainStep p)) (n k : ℕ) :
    (forFrom f n k).Only (PlainStep p) := by
  induction n generalizing k with
  | zero => trivial
  | succ n ih => exact only_bind (hf k) (fun _ => ih (k+1))

/-! ## Blocks -/

-- `P` is what is known of the book; `assign` keeps it.
variable {assign : ℕ → ℕ → BitVec 32 → Action} {P : Book → Prop} {v : Book} {i : ℕ}

theorem path_addrOf {k : ℕ} (hv : P v)
    (hassign : ∀ v b s, P v → Relies p v s → may p v s (assign i k b) ∧ P (note v (assign i k b))) :
    Path p (addrOf p i k assign) v fun _ v => P v := by
  have hlook : ∀ v, P v → Path p (look fun s => (s.inodes i).addrs k) v fun _ v => P v :=
    fun v hv => along_mono (path_plain (only_look _)) (fun _ _ h => h ▸ hv)
  apply path_low (only_look _)
  intro a
  by_cases ha : a = 0
  · subst ha
    rw [if_pos rfl]
    apply path_low (only_allocBlock i)
    intro b s _ hs
    obtain ⟨hmay, hP⟩ := hassign v (BitVec.ofNat 32 b) s hv hs.2
    exact ⟨⟨hmay, rfl⟩, hlook _ hP⟩
  · rw [if_neg ha]
    exact hlook v hv

theorem path_blockMap {block : ℕ} (hv : P v) (hassign : ∀ v b k s, P v → k ≤ block → Relies p v s →
      may p v s (assign i k b) ∧ P (note v (assign i k b))) :
    Path p (blockMap p i block assign) v fun _ v => P v := by
  rw [blockMap]
  split
  · exact path_addrOf hv (fun v b s hv hs => hassign v b block s hv le_rfl hs)
  next hblock =>
    apply along_seq (path_addrOf hv (fun v b s hv hs => hassign v b nDirect s hv (Nat.le_of_not_lt hblock) hs))
    intro a v hv
    apply path_low (only_wait (by trivial))
    intro _
    apply path_low (only_look _)
    intro lba
    split
    · apply path_low (only_allocBlock i)
      intro b
      apply path_low (only_act (by trivial))
      intro _
      exact path_low (only_act (by trivial)) (fun _ => hv)
    · exact path_low (only_act (by trivial)) (fun _ => hv)

theorem path_blockLoop {piece : Action} (hpiece : Plain piece) {last fuel off left : ℕ} (hlast : off+left ≤ last)
    (hv : P v) (hassign : ∀ v b k s, P v → blockSize*k < last → Relies p v s →
      may p v s (assign i k b) ∧ P (note v (assign i k b))) :
    Path p (blockLoop p i assign piece fuel off left) v fun _ v => P v := by
  induction fuel generalizing off left v with
  | zero => exact hv
  | succ fuel ih =>
    rw [blockLoop]
    split
    next hleft =>
      have hblock : ∀ v b k s, P v → k ≤ off/blockSize → Relies p v s →
          may p v s (assign i k b) ∧ P (note v (assign i k b)) := by
        intro v b k s hv hk hs
        refine hassign v b k s hv ?_ hs
        have hmul := Nat.mul_le_mul_left blockSize hk
        have hdiv := Nat.mul_div_le off blockSize
        omega
      apply along_seq (path_blockMap hv hblock)
      intro _ v hv
      apply path_low (only_act hpiece)
      intro _
      exact ih (by omega) hv
    · exact hv

/-- A read changes no book. -/
theorem path_readInode (off size : ℕ) : Path p (readInode p i off size) v fun _ v' => v' = v := by
  apply path_low (only_look _)
  intro x
  dsimp only
  split
  · exact rfl
  split
  · exact rfl
  have hfill : ∀ v' b k s, v' = v → blockSize*k < off+(if off+size > x.size.toNat then x.size.toNat-off else size) →
      Relies p v' s → may p v' s (.fill i k b) ∧ note v' (.fill i k b) = v := by
    rintro v' b k s rfl - -
    exact ⟨trivial, rfl⟩
  apply along_seq (path_blockLoop (P := fun v' => v' = v) (by trivial) le_rfl rfl hfill)
  rintro _ v' rfl
  exact rfl

theorem ends_readInode (off size : ℕ) : Ends p (readInode p i off size) refs files fun _ => refs :=
  path_readInode off size

/-! ## Writing to the disk -/

theorem path_saveInode {Q : ℕ → Book → Prop} (hbuffer : v.buffer = .none) (hknown : v.known = none)
    (hhas : Has v i) (hQ : ∀ n, Q n { v with dirty := v.dirty.filter (· ≠ i), buffer := .saved i n }) :
    Path p (saveInode p i) v Q := by
  intro s hready _
  refine ⟨⟨⟨hbuffer, Option.isNone_iff_eq_none.mp hready, rfl, hhas, hknown⟩, rfl⟩, ?_⟩
  intro s' _ _
  exact ⟨⟨⟨⟨_, rfl⟩, hknown⟩, rfl⟩, hQ _⟩

theorem path_writeToDisk {Q : Unit → Book → Prop} (hbuffer : v.buffer = .none) (hfreeing : v.freeing = none)
    (hknown : v.known = none) (hhas : Has v i) (hQ : Q () { v with dirty := v.dirty.filter (· ≠ i), buffer := .none }) :
    Path p (writeToDisk p i) v Q := by
  apply along_bind
  apply path_saveInode hbuffer hknown hhas
  intro n
  exact path_act (fun _ _ _ => Or.inr ⟨i, rfl, hfreeing⟩) hQ

theorem filter_self (i : ℕ) : [i].filter (· ≠ i) = [] := by
  rw [List.filter_cons_of_neg (by simp), List.filter_nil]

theorem hand_saved (refs files : List ℕ) (i : ℕ) :
    (⟨refs, files, [i].filter (· ≠ i), none, none, none, .none, none⟩ : Book) = hand refs files := by
  rw [filter_self]
  rfl

/-- An inode in hand is changed and written. -/
theorem ends_changed {e : Cache → Action} (hi : i ∈ refs)
    (hmay : ∀ s, may p (hand refs files) s (e s))
    (hnote : ∀ v s, note v (e s) = { v with dirty := i :: v.dirty }) :
    Ends p (do
      choose p e fun _ => ()
      writeToDisk p i) refs files fun _ => refs := by
  intro s _ _
  refine ⟨⟨hmay s, rfl⟩, ?_⟩
  rw [hnote]
  apply path_writeToDisk (by rfl) (by rfl) (by rfl) (Or.inl hi)
  exact hand_saved refs files i

theorem ends_changeLinks (hi : i ∈ refs) (change : BitVec 16 → BitVec 16) :
    Ends p (changeLinks p i change) refs files fun _ => refs :=
  ends_changed hi (fun _ => ⟨hi, rfl, rfl⟩) (fun _ _ => rfl)

/-- In the loop of `write_inode`. -/
def Writing (refs files : List ℕ) (i last : ℕ) (v : Book) : Prop :=
  ∃ dirty, (∀ j ∈ dirty, j = i) ∧ v = ⟨refs, files, dirty, none, some (i, last), none, .none, none⟩

theorem filter_all {dirty : List ℕ} (h : ∀ j ∈ dirty, j = i) : dirty.filter (· ≠ i) = [] := by
  rw [List.filter_eq_nil_iff]
  intro j hj
  simp [h j hj]

/-- What was written is settled at the end, or written to the disk. -/
theorem ends_writeInode {off size : ℕ} {piece : Action} (hi : i ∈ refs ∨ i ∈ files) (hpiece : Plain piece) :
    Ends p (writeInode p i off size piece) refs files fun _ => refs := by
  have hend : ∀ dirty : List ℕ, (∀ j ∈ dirty, j = i) →
      { hand refs files with dirty := dirty.filter (· ≠ i) } = hand refs files := by
    intro dirty hdirty
    rw [filter_all hdirty]
    rfl
  apply ends_low (only_look _)
  intro x
  apply ends_ite
  · exact fun _ => ends_pure rfl
  intro _
  apply ends_ite
  · exact fun _ => ends_pure rfl
  intro _
  apply ends_ite
  · exact fun _ => ends_pure rfl
  intro _
  have hstart : Path p (act p (.start i (off+size))) (hand refs files) fun _ v =>
      v = ⟨refs, files, [], none, some (i, off+size), none, .none, none⟩ :=
    path_act (fun _ _ _ => ⟨⟨rfl, rfl, rfl, rfl⟩, rfl⟩) rfl
  have hloop : Path p (blockLoop p i .assign piece size off size)
      ⟨refs, files, [], none, some (i, off+size), none, .none, none⟩ fun _ v =>
        Writing refs files i (off+size) v ∧ (size = 0 → v.dirty = []) := by
    cases size with
    | zero => exact ⟨⟨[], by simp, rfl⟩, fun _ => rfl⟩
    | succ n =>
      apply along_mono (path_blockLoop (P := Writing refs files i (off+(n+1))) hpiece le_rfl ⟨[], by simp, rfl⟩ _)
      · exact fun _ v hv => ⟨hv, fun hc => absurd hc (Nat.succ_ne_zero n)⟩
      · rintro v b k s ⟨dirty, hdirty, rfl⟩ hk -
        refine ⟨⟨_, rfl, hk⟩, i :: dirty, fun j hj => ?_, rfl⟩
        obtain rfl | hj := List.mem_cons.mp hj
        · rfl
        · exact hdirty j hj
  apply along_seq hstart
  rintro _ v rfl
  apply along_seq hloop
  rintro _ v ⟨⟨dirty, hdirty, rfl⟩, hzero⟩
  apply along_bind
  intro s _ _
  by_cases hgrown : 0 < size ∧ off+size > (s.inodes i).size.toNat
  · simp only [if_pos hgrown, decide_eq_true hgrown]
    refine ⟨⟨⟨rfl, hgrown.2⟩, rfl⟩, ?_⟩
    change Path p (do
      writeToDisk p i
      pure (some size)) ⟨refs, files, i :: dirty, none, none, none, .none, none⟩ _
    apply along_bind
    exact path_writeToDisk rfl rfl rfl hi (hend (i :: dirty) (by simpa using hdirty))
  · simp only [if_neg hgrown, decide_eq_false hgrown]
    have hsettled : off+size ≤ (s.inodes i).size.toNat ∨ dirty = [] := by
      by_cases hsize : size = 0
      · exact Or.inr (hzero hsize)
      · left
        by_contra hlt
        exact hgrown ⟨Nat.pos_of_ne_zero hsize, Nat.lt_of_not_le hlt⟩
    exact ⟨⟨⟨_, rfl, hsettled⟩, rfl⟩, hend dirty hdirty⟩

end Paths

end BabyOS.CacheBooks
