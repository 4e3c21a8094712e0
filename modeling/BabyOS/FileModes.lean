import BabyOS.DiskInvariant
import BabyOS.NumberRendering

/-!
# Modes of files

`fopen` makes a flag word of a mode string with the constants of `fcntl.h`, and
`do_open` takes it apart with its own.
-/

set_option autoImplicit false

namespace BabyOS.FileModes
open BabyOS.AtomicPrograms BabyOS.ByteWords BabyOS.FileTable BabyOS.FileSystem
open BabyOS.NumberRendering (chr)

/-! ## The library -/

def oRdonly : BitVec 32 := 0x0
def oWronly : BitVec 32 := 0x1
def oRdwr : BitVec 32 := 0x2
def oCreat : BitVec 32 := 0x40
def oTrunc : BitVec 32 := 0x200
def oAppend : BitVec 32 := 0x400

/-- The loop over the characters behind the first. -/
def parseRest (m : BitVec 32) : List Byte → BitVec 32
  | [] => m
  | c :: l =>
    if c = chr 'b' then parseRest m l
    else if c = chr '+' then parseRest oRdwr l
    else parseRest m l

/-- `__parse_file_flags`. -/
def parseFileFlags : List Byte → BitVec 32
  | [] => 0
  | c :: l =>
    if c = chr 'r' then parseRest oRdonly l ||| 0
    else if c = chr 'w' then parseRest oWronly l ||| (oCreat ||| oTrunc)
    else if c = chr 'a' then parseRest oWronly l ||| (oCreat ||| oAppend)
    else 0

/-- The descriptor that `fopen` gets, or its failure; its `fseek` does nothing. -/
def fopen (p : ℕ) (path mode : List Byte) : Prog Answer := doOpen p path (parseFileFlags mode)

/-! ## What is asked for -/

inductive Kind
  | read
  | write
  | append
deriving DecidableEq

def Kind.first : Kind → Byte
  | .read => chr 'r'
  | .write => chr 'w'
  | .append => chr 'a'

/-- A mode string and its bytes before the NUL. -/
structure Mode where
  kind : Kind
  rest : List Byte
  nonzero : ∀ c ∈ rest, c ≠ 0

def Mode.bytes (m : Mode) : List Byte := m.kind.first :: m.rest

def Mode.plus (m : Mode) : Bool := m.rest.contains (chr '+')

def Mode.reads (m : Mode) : Bool := m.kind = .read || m.plus

def Mode.writes (m : Mode) : Bool := m.kind ≠ .read || m.plus

def Mode.creates (m : Mode) : Bool := m.kind ≠ .read

/-- The inode, created if it is missing or not. -/
def find (p : ℕ) (path : List Byte) (creates : Bool) : Prog (Option ℕ) :=
  if creates then create p path typeFile 0 0
  else do
    match ← namei p path false with
    | none => pure none
    | some (i, _) => do
      mark (.branch (.unlocked i))
      pure (some i)

/-- What `do_open` does with the inode. -/
def opened (p : ℕ) (filesOnly readable writeable : Bool) : Option ℕ → Prog Answer
  | none => pure .failed
  | some i => do
    let type ← look fun s => (s.inodes i).type
    unlockInode i
    openFile p i (type = typeDir ∧ filesOnly) readable writeable

/-- The same blocks, and the same records of the cached inodes. -/
structure SameContents (s s' : Fs) : Prop where
  disk : s'.disk = s.disk
  records : ∀ j, (s'.inodes j).toDiskInode = (s.inodes j).toDiskInode

/-- The descriptor has the rights of the mode, the file is created as the mode says, and
nothing happens to the contents for `r` and `a`. -/
structure AsAsked (m : Mode) : Prop where
  rights : ∀ p path s fd s', (fopen p path m.bytes).run s = some (.number fd, s') →
    ∃ f file, s'.file p fd = some (f, file) ∧ file.readable = m.reads ∧ file.writeable = m.writes
  created : ∀ p path s, (fopen p path m.bytes).run s = ((find p path m.creates).run s).bind fun r =>
    (opened p (parseFileFlags m.bytes ≠ modeRdonly) m.reads m.writes r.1).run r.2
  kept : m.kind ≠ .write → ∀ p path s i s₁ fd s', (find p path m.creates).run s = some (some i, s₁) →
    (fopen p path m.bytes).run s = some (.number fd, s') → SameContents s₁ s'

/-! ## The kernel -/

/-- `do_open` knows three bits of the word, and whether it is another word than that for
reading. -/
theorem doOpen_eq (p : ℕ) (path : List Byte) (mode : BitVec 32) :
    doOpen p path mode = find p path (mode &&& modeCreate ≠ 0) >>=
      opened p (mode ≠ modeRdonly) (mode &&& modeWronly = 0) (mode &&& modeWronly ≠ 0 ∨ mode &&& modeRdwr ≠ 0) := by
  rw [doOpen, find]
  by_cases hc : mode &&& modeCreate ≠ 0
  · rw [if_pos hc, if_pos (decide_eq_true hc)]
    refine congrArg _ (funext fun r => ?_)
    cases r with
    | none => rfl
    | some i => simp only [opened, decide_eq_true_eq]
  · rw [if_neg hc, if_neg (by simpa using hc), Program.bind_assoc]
    refine congrArg _ (funext fun r => ?_)
    cases r with
    | none => rfl
    | some i =>
      simp only [Program.bind_assoc, Program.pure_bind, opened, decide_eq_true_eq]

section Runs

variable {p i fd : ℕ} {s s' : Fs} {refused readable writeable : Bool}

/-- The descriptor that was free gets the slot. -/
theorem allocFd_file {x x' : FileTable.Process} {f : ℕ} (h : x.allocFd f = some (fd, x')) :
    x'.getFile fd = some f ∧ ∃ y, x.allocFd 0 = some (fd, y) := by
  rw [FileTable.Process.allocFd] at h
  split at h
  · cases h
  next k hk =>
    obtain ⟨rfl, rfl⟩ := Prod.mk.inj (Option.some.inj h)
    have hlt := List.mem_range.mp (List.mem_of_find?_eq_some hk)
    constructor
    · rw [FileTable.Process.getFile, if_neg (by omega), Int.toNat_natCast]
      exact Function.update_self k (some f) x.files
    · rw [FileTable.Process.allocFd, hk]
      exact ⟨_, rfl⟩

/-- A step that gives a descriptor initialises a slot for it. -/
theorem doOpen_some {t : System} {r : System.Result} (h : t.doOpen p i refused readable writeable = some r)
    (hne : r.opened ≠ []) : ∃ f x, r.opened = [f] ∧ (t.procs p).allocFd f = some x ∧
      r.state.procs p = x.2 ∧ r.state.table f = File.init .inode (some i) none readable writeable := by
  rw [System.doOpen] at h
  split at h
  · rw [← Option.some.inj h] at hne
    exact absurd rfl hne
  · split at h
    · rw [← Option.some.inj h] at hne
      exact absurd rfl hne
    next f t' _ =>
      split at h
      · obtain ⟨r', -, rfl⟩ := Option.map_eq_some_iff.mp h
        exact absurd rfl hne
      next k x hx =>
        rw [← Option.some.inj h]
        exact ⟨f, (k, x), rfl, hx, Function.update_self _ _ _, Function.update_self _ _ _⟩

theorem openFile_rights (h : (openFile p i refused readable writeable).run s = some (.number fd, s')) :
    ∃ f file, s'.file p fd = some (f, file) ∧ file.readable = readable ∧ file.writeable = writeable := by
  rw [openFile, Program.run] at h
  split at h
  next hready =>
    rw [Program.run] at h
    obtain ⟨hanswer, rfl⟩ := Prod.mk.inj (Option.some.inj h)
    obtain ⟨⟨opened, released, t⟩, hr⟩ := Option.isSome_iff_exists.mp hready
    rw [hr] at hanswer ⊢
    cases opened with
    | nil => cases hanswer
    | cons f fs =>
      obtain ⟨f', x, hopened, hx, hproc, htable⟩ := doOpen_some hr (List.cons_ne_nil _ _)
      obtain ⟨rfl, -⟩ := List.cons.inj hopened
      obtain ⟨hget, y, hy⟩ := @allocFd_file x.1 _ x.2 f hx
      rw [hy] at hanswer
      obtain rfl := Answer.number.inj hanswer
      refine ⟨f, File.init .inode (some i) none readable writeable, ?_, rfl, rfl⟩
      change ((t.procs p).getFile x.1).map (fun f => (f, t.table f)) = _
      rw [hproc, hget, Option.map_some, htable]
  next => cases h

theorem openFile_same {a : Answer} (h : (openFile p i refused readable writeable).run s = some (a, s')) :
    s'.disk = s.disk ∧ s'.inodes = s.inodes := by
  rw [openFile, Program.run] at h
  split at h
  next hready =>
    rw [Program.run] at h
    obtain ⟨-, rfl⟩ := Prod.mk.inj (Option.some.inj h)
    obtain ⟨⟨opened, released, t⟩, hr⟩ := Option.isSome_iff_exists.mp hready
    rw [hr]
    cases opened with
    | nil => exact ⟨rfl, rfl⟩
    | cons f fs => exact ⟨rfl, rfl⟩
  next => cases h

/-- The type is looked at and the inode unlocked before the slot is taken. -/
theorem opened_run (p : ℕ) (filesOnly readable writeable : Bool) (i : ℕ) (s : Fs) :
    (opened p filesOnly readable writeable (some i)).run s =
      (openFile p i ((s.inodes i).type = typeDir ∧ filesOnly) readable writeable).run
        (s.setInode i { s.inodes i with sem := (s.inodes i).sem.up }) := rfl

theorem opened_rights {filesOnly : Bool} {o : Option ℕ}
    (h : (opened p filesOnly readable writeable o).run s = some (.number fd, s')) :
    ∃ f file, s'.file p fd = some (f, file) ∧ file.readable = readable ∧ file.writeable = writeable := by
  cases o with
  | none => cases h
  | some i =>
    rw [opened_run] at h
    exact openFile_rights h

theorem opened_same {filesOnly : Bool} {a : Answer}
    (h : (opened p filesOnly readable writeable (some i)).run s = some (a, s')) : SameContents s s' := by
  rw [opened_run] at h
  have ⟨hdisk, hinodes⟩ := openFile_same h
  refine ⟨hdisk, fun j => ?_⟩
  rw [hinodes]
  by_cases hj : j = i
  · rw [hj]
    change Inode.toDiskInode (Function.update s.inodes i { s.inodes i with sem := (s.inodes i).sem.up } i) = _
    rw [Function.update_self]
  · exact congrArg Inode.toDiskInode (Function.update_of_ne hj _ _)

end Runs

/-! ## Flag words -/

/-- Only a `+` changes the access that is asked for. -/
theorem parseRest_eq (l : List Byte) (m : BitVec 32) :
    parseRest m l = if l.contains (chr '+') then oRdwr else m := by
  induction l generalizing m with
  | nil => rfl
  | cons c l ih =>
    rw [parseRest, List.contains_cons]
    by_cases hb : c = chr 'b'
    · rw [if_pos hb, ih, hb]
      rfl
    · rw [if_neg hb]
      by_cases hplus : c = chr '+'
      · rw [if_pos hplus, ih, hplus]
        simp
      · rw [if_neg hplus, ih]
        have hne : (chr '+' == c) = false := by
          rw [beq_eq_false_iff_ne]
          exact Ne.symm hplus
        rw [hne, Bool.false_or]

/-- The word for a kind with or without a `+`. -/
def word : Kind → Bool → BitVec 32
  | .read, plus => (if plus then oRdwr else oRdonly) ||| 0
  | .write, plus => (if plus then oRdwr else oWronly) ||| (oCreat ||| oTrunc)
  | .append, plus => (if plus then oRdwr else oWronly) ||| (oCreat ||| oAppend)

theorem parse_word (m : Mode) : parseFileFlags m.bytes = word m.kind m.plus := by
  rw [Mode.bytes, parseFileFlags, parseRest_eq, parseRest_eq, Mode.plus]
  cases m.kind <;> rfl

/-- `fopen` asks for what it means exactly when the mode starts with `r` and has no `+`. -/
theorem modes_exact (m : Mode) : AsAsked m ↔ m.kind = .read ∧ chr '+' ∉ m.rest := by
  have hrest : m.plus = false ↔ chr '+' ∉ m.rest := by
    rw [Mode.plus, ← Bool.not_eq_true, List.contains_iff_mem]
  rw [← hrest]
  constructor
  · intro h
    have hrights := h.rights 0 [slash, 0x61] DiskInvariant.small 0
    rw [fopen, parse_word] at hrights
    -- the file is there, so that every word opens it
    have hrun : ∀ kind plus, ∃ s' f file, (doOpen 0 [slash, 0x61] (word kind plus)).run DiskInvariant.small =
        some (.number 0, s') ∧ s'.file 0 0 = some (f, file) ∧ file.readable = !plus ∧ file.writeable = plus := by
      intro kind plus
      have hopen : ((doOpen 0 [slash, 0x61] (word kind plus)).run DiskInvariant.small).bind (fun r =>
          (r.2.file 0 0).map fun x => (decide (r.1 = .number 0), x.2.readable, x.2.writeable)) =
          some (true, !plus, plus) := by
        cases kind <;> cases plus <;> decide +kernel
      obtain ⟨⟨a, s'⟩, hrun, hfile⟩ := Option.bind_eq_some_iff.mp hopen
      obtain ⟨⟨f, file⟩, hfile, heq⟩ := Option.map_eq_some_iff.mp hfile
      obtain ⟨ha, hr, hw⟩ := Prod.mk.inj heq |>.imp_right Prod.mk.inj
      have hnumber : a = .number 0 := of_decide_eq_true ha
      rw [hnumber] at hrun
      exact ⟨s', f, file, hrun, hfile, hr, hw⟩
    obtain ⟨s', f, file, hopen, hfile, hr, hw⟩ := hrun m.kind m.plus
    obtain ⟨f', file', hfile', hr', hw'⟩ := hrights s' hopen
    rw [Nat.cast_zero, hfile] at hfile'
    obtain ⟨-, rfl⟩ := Prod.mk.inj (Option.some.inj hfile')
    rw [hr, Mode.reads] at hr'
    rw [hw, Mode.writes] at hw'
    generalize m.plus = plus at hr' hw' ⊢
    revert hr' hw'
    cases m.kind <;> cases plus <;> decide
  · rintro ⟨hkind, hplus⟩
    have hreads : m.reads = true := by rw [Mode.reads, hkind]; rfl
    have hwrites : m.writes = false := by rw [Mode.writes, hkind, hplus]; rfl
    have hcreates : m.creates = false := by rw [Mode.creates, hkind]; rfl
    have hword : parseFileFlags m.bytes = 0 := by
      rw [parse_word, hkind, hplus]
      rfl
    have heq : ∀ p path, fopen p path m.bytes = find p path false >>= opened p true true false := by
      intro p path
      rw [fopen, hword, doOpen_eq]
      rfl
    refine ⟨fun p path s fd s' h => ?_, fun p path s => ?_, fun _ p path s i s₁ fd s' hfind h => ?_⟩
    · rw [heq] at h
      obtain ⟨o, s₁, -, hopened⟩ := Program.run_bind_some h
      rw [hreads, hwrites]
      exact opened_rights hopened
    · rw [heq, hword, hreads, hwrites, hcreates, Program.run_bind]
      rfl
    · rw [hcreates] at hfind
      rw [heq, Program.run_bind_of hfind] at h
      exact opened_same h

/-- The mode "w". -/
def onlyW : Mode := ⟨.write, [], by simp⟩

/-- It opens a file that is there for reading only. -/
theorem write_refused : ¬ AsAsked onlyW := by
  intro h
  have hopen : ((fopen 0 [slash, 0x61] onlyW.bytes).run DiskInvariant.small).bind (fun r =>
      (r.2.file 0 0).map fun x => (decide (r.1 = .number 0), x.2.readable, x.2.writeable)) =
      some (true, true, false) := by decide +kernel
  obtain ⟨⟨a, s'⟩, hrun, hfile⟩ := Option.bind_eq_some_iff.mp hopen
  obtain ⟨⟨f, file⟩, hfile, heq⟩ := Option.map_eq_some_iff.mp hfile
  obtain ⟨ha, -, hw⟩ := Prod.mk.inj heq |>.imp_right Prod.mk.inj
  have hnumber : a = .number 0 := of_decide_eq_true ha
  rw [hnumber] at hrun
  obtain ⟨f', file', hfile', -, hw'⟩ := h.rights 0 [slash, 0x61] DiskInvariant.small 0 s' hrun
  rw [Nat.cast_zero, hfile] at hfile'
  obtain ⟨-, rfl⟩ := Prod.mk.inj (Option.some.inj hfile')
  rw [hw] at hw'
  cases hw'

end BabyOS.FileModes
