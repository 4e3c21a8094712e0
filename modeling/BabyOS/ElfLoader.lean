import BabyOS.CopyOnWrite
import BabyOS.ElfSegments
import BabyOS.ImagePages

/-!
# The ELF loader

The loop over the program headers, on the machine with its frames and page
tables. What a segment asks for is `ElfSegments.loadElfSegment`; here the frames
are allocated, mapped and filled.
-/

set_option autoImplicit false

namespace BabyOS.ElfLoader
open BabyOS.BuddyMachine BabyOS.BuddyArithmetic BabyOS.AreaMachine BabyOS.FrameCounts BabyOS.ByteWords
open BabyOS.RadixTables BabyOS.PageMachine BabyOS.PageCounts BabyOS.AreaInvariant BabyOS.AreaOperations
open BabyOS.AreaCoverage BabyOS.ProcessMachine BabyOS.ProcessInvariant BabyOS.ProcessChanges
open BabyOS.ProcessSteps BabyOS.FrameTallies BabyOS.ImagePages
open BabyOS.ElfSegments (File Phdr readFileFrom inPage pages Has)
open BabyOS.CopyOnWrite (seen)

def ptLoad : ℕ := 1

def elfMagic : ℕ := 0x464c457f

def ehdrSize : ℕ := 64

def phdrSize : ℕ := 56

/-- The program header at an offset of the file. -/
def phdrAt (file : File) (o : ℕ) : Phdr :=
  ⟨word file.bytes o 4, word file.bytes (o+4) 4, word file.bytes (o+8) 8, word file.bytes (o+16) 8,
    word file.bytes (o+32) 8, word file.bytes (o+40) 8, word_lt _ _ 8, word_lt _ _ 8, word_lt _ _ 8⟩

/-- The stores of a segment: bytes of the file, then zeros. -/
def store (pa : ℕ) : (ℕ → ℕ) → List (ℕ × ℕ) → (ℕ → ℕ → ℕ) → ℕ → ℕ → ℕ
  | _, [], mem => mem
  | data, w :: rest, mem => store pa (fun _ => 0) rest (writeBytes (pa+w.1) w.2 data mem)

/-- `load_elf_segment`, with its success. -/
def loadElfSegment (fuel : ℕ) (m : Machine) (file : File) (ph : Phdr) : Option (Bool × Machine) :=
  match ElfSegments.loadElfSegment fuel m.self.vmm.mmap file ph with
  | none => none
  | some a =>
    match a.request with
    | none => some (false, m)
    | some r =>
      let m := m.setAreas a.areas
      match m.phys.buddy.allocPages r.order with
      | none => none
      | some (pa, b) =>
        match mapPages r.mapped m.self.tables (pageOf ph.vaddr) (mapNr pa) { m.phys with buddy := b } with
        | none => none
        | some (t, s) =>
          let data := fun k => (file.bytes (ph.offset+k)).toNat
          some (a.ret = 0, m.setTables t { s with mem := store pa data r.writes s.mem })

structure Bounds where
  startCode : ℕ
  endCode : ℕ
  startData : ℕ
  endData : ℕ
  elfBss : ℕ
  elfBrk : ℕ

def Bounds.none : Bounds := ⟨2^64-1, 0, 0, 0, 0, 0⟩

def pfX : ℕ := 1

def checkSegmentBound (ph : Phdr) (b : Bounds) : Bounds :=
  let fileEnd := (ph.vaddr+ph.filesz)%2^64
  let memEnd := (ph.vaddr+ph.memsz)%2^64
  { startCode := if ph.vaddr < b.startCode then ph.vaddr else b.startCode
    startData := if b.startData < ph.vaddr then ph.vaddr else b.startData
    elfBss := if fileEnd > b.elfBss then fileEnd else b.elfBss
    endCode := if ph.flags &&& pfX ≠ 0 ∧ b.endCode < fileEnd then fileEnd else b.endCode
    endData := if b.endData < fileEnd then fileEnd else b.endData
    elfBrk := if memEnd > b.elfBrk then memEnd else b.elfBrk }

/-- A run of the loader, with the headers that it has loaded. -/
structure Loader where
  ok : Bool
  loaded : List Phdr
  bounds : Bounds
  machine : Machine

/-- The loop of `load_elf_binary` for so many more rounds. -/
def loadFrom (fuel : ℕ) (file : File) : ℕ → ℕ → Loader → Option Loader
  | 0, _, x => some x
  | k+1, fileOffset, x =>
    if (readFileFrom file fileOffset phdrSize).1 = false then some { x with ok := false }
    else
      let ph := phdrAt file fileOffset
      if ph.type ≠ ptLoad then loadFrom fuel file k fileOffset x
      else
        match loadElfSegment fuel x.machine file ph with
        | none => none
        | some (false, m) => some { x with ok := false, machine := m }
        | some (true, m) => loadFrom fuel file k ((fileOffset+phdrSize)%2^64)
            ⟨true, x.loaded++[ph], checkSegmentBound ph x.bounds, m⟩

/-- `set_segment_bound`; the other bounds are not read again. -/
def setSegmentBound (m : Machine) (b : Bounds) : Machine :=
  m.setSelf { m.self with vmm := { m.self.vmm with startBrk := b.elfBrk, brk := pageAlign b.elfBrk } }

def loadElfBinary (fuel : ℕ) (m : Machine) (file : File) (phoff phnum : ℕ) : Option Loader :=
  match loadFrom fuel file phnum phoff ⟨true, [], Bounds.none, m⟩ with
  | none => none
  | some x => if x.ok then some { x with machine := setSegmentBound x.machine x.bounds } else some x

/-- `elf_t::load` from the read of the header on; the entry point is left to the caller's frame. -/
def load (fuel : ℕ) (m : Machine) (file : File) : Option Loader :=
  if (readFileFrom file 0 ehdrSize).1 = false ∨ word file.bytes 0 4 ≠ elfMagic then
    some ⟨false, [], Bounds.none, m⟩
  else loadElfBinary fuel m file (word file.bytes 32 8) (word file.bytes 56 2)

/-! ## What should be loaded -/

/-- The program headers, one behind the other. -/
def headers (file : File) : List Phdr :=
  (List.range (word file.bytes 56 2)).map fun i => phdrAt file ((word file.bytes 32 8+phdrSize*i)%2^64)

def Loadable (ph : Phdr) : Prop := ph.type = ptLoad

instance (ph : Phdr) : Decidable (Loadable ph) := inferInstanceAs (Decidable (_ = _))

def loadable (file : File) : List Phdr := (headers file).filter (Loadable ·)

/-- No loadable header comes after one of another type. -/
def InFront (file : File) : Prop :=
  (headers file).Pairwise fun ph later => ¬ Loadable ph → ¬ Loadable later

/-- The segment has at most 1024 pages, and all its bytes are in them. -/
def Sized (ph : Phdr) : Prop :=
  pages ph ≤ 2^maxOrder ∧ inPage ph+max ph.filesz ph.memsz ≤ pages ph*pageSize

/-- The segment is in the memory of the process, and its bytes are in its areas. -/
structure Present (file : File) (m : Machine) (ph : Phdr) : Prop where
  low : ∀ k < max ph.filesz ph.memsz, ph.vaddr+k < 2^47
  file : ∀ k < ph.filesz, seen m m.current (ph.vaddr+k) = some (file.bytes (ph.offset+k)).toNat
  zero : ∀ k, ph.filesz ≤ k → k < ph.memsz → seen m m.current (ph.vaddr+k) = some 0
  areas : ∀ k < ph.memsz, InAreas m.self.vmm.mmap (ph.vaddr+k)

/-- An address of the pages of a segment. -/
def OnPages (ph : Phdr) (a : ℕ) : Prop :=
  pageOf ph.vaddr ≤ pageOf a ∧ pageOf a < pageOf ph.vaddr+pages ph

/-! ## The pages and the bytes of a segment -/

section Pages

variable {M : Set ℕ} {s s' : Phys} {t t' : Pml4Table} {n f count : ℕ}

/-- The pages go to the frames in their order; other pages, and the frames that are in use,
stay as they are. -/
theorem mapPages_find (h : Frames M s.buddy) (hend : ∀ k < count, n+k < 2^35)
    (hs : mapPages count t n f s = some (t', s')) :
    (∀ k < 2^35, findPte t' k = if n ≤ k ∧ k < n+count then some ⟨f+(k-n), true⟩ else findPte t k) ∧
      ∀ g, g ∉ M ∨ s.buddy.ref g ≠ 0 → s'.mem g = s.mem g := by
  induction count generalizing t n f s with
  | zero =>
    obtain ⟨rfl, rfl⟩ := Prod.mk.inj (Option.some.inj hs)
    exact ⟨fun k _ => (if_neg (by omega)).symm, fun _ _ => rfl⟩
  | succ count ih =>
    rw [mapPages] at hs
    split at hs
    · cases hs
    next t₁ s₁ hpage =>
    obtain ⟨new, hgrow, hplaced⟩ := mapPage_spec h hpage
    have hlow : n < 2^35 := hend 0 (Nat.succ_pos count)
    obtain ⟨hfind, hmem⟩ := ih hgrow.frames (fun k hk => by have := hend (k+1) (by omega); omega) hs
    have hkept : ∀ g, g ∉ M ∨ s.buddy.ref g ≠ 0 → new g = 0 := by
      intro g hg
      by_contra hne
      obtain ⟨hM, hzero, -⟩ := hgrow.fresh g (Nat.pos_of_ne_zero hne)
      rcases hg with hout | hused
      · exact hout hM
      · exact hused hzero
    refine ⟨fun k hk => ?_, fun g hg => ?_⟩
    · rw [hfind k hk, placed_find hplaced, Nat.mod_eq_of_lt hk, Nat.mod_eq_of_lt hlow]
      by_cases hfirst : k = n
      · subst hfirst
        rw [if_neg (by omega), if_pos rfl, if_pos (by omega), Nat.sub_self, Nat.add_zero]
      · rw [if_neg hfirst]
        by_cases hin : n+1 ≤ k ∧ k < n+1+count
        · have hplace : f+1+(k-(n+1)) = f+(k-n) := by omega
          rw [if_pos hin, if_pos (by omega), hplace]
        · rw [if_neg hin, if_neg (by omega)]
    · have hzero := hkept g hg
      have hused : g ∉ M ∨ s₁.buddy.ref g ≠ 0 := by
        rw [hgrow.ref, hzero]
        simpa using hg
      rw [hmem g hused, hgrow.mem g hzero]

theorem store_outside {pa f o : ℕ} {data : ℕ → ℕ} {writes : List (ℕ × ℕ)} {mem : ℕ → ℕ → ℕ}
    (h : ∀ w ∈ writes, frameAddr f+o < pa+w.1 ∨ pa+w.1+w.2 ≤ frameAddr f+o) :
    store pa data writes mem f o = mem f o := by
  induction writes generalizing data mem with
  | nil => rfl
  | cons w rest ih =>
    have hfirst := h w List.mem_cons_self
    rw [store, ih fun w' hw' => h w' (List.mem_cons_of_mem w hw'), writeBytes, if_neg (by omega)]

/-- The stores of an accepted segment. -/
def writesOf (ph : Phdr) : List (ℕ × ℕ) :=
  if ph.memsz > ph.filesz then [(inPage ph, ph.filesz), (inPage ph+ph.filesz, ph.memsz-ph.filesz)]
  else [(inPage ph, ph.filesz)]

theorem writesOf_inside {ph : Phdr} {w : ℕ × ℕ} (hw : w ∈ writesOf ph) :
    inPage ph ≤ w.1 ∧ w.1+w.2 ≤ inPage ph+max ph.filesz ph.memsz := by
  rw [writesOf] at hw
  split_ifs at hw with hmem
  · simp only [List.mem_cons, List.not_mem_nil, or_false] at hw
    rcases hw with rfl | rfl
    · exact ⟨le_rfl, by omega⟩
    · exact ⟨Nat.le_add_right _ _, by omega⟩
  · obtain rfl := List.mem_singleton.mp hw
    exact ⟨le_rfl, by omega⟩

theorem store_file {ph : Phdr} {pa f o k : ℕ} {data : ℕ → ℕ} {mem : ℕ → ℕ → ℕ} (hk : k < ph.filesz)
    (hplace : frameAddr f+o = pa+inPage ph+k) : store pa data (writesOf ph) mem f o = data k := by
  have hread : writeBytes (pa+inPage ph) ph.filesz data mem f o = data k := by
    rw [writeBytes, if_pos (by omega), hplace, Nat.add_sub_cancel_left]
  rw [writesOf]
  split_ifs
  · rw [store, store, store, writeBytes, if_neg (by omega)]
    exact hread
  · exact hread

theorem store_zero {ph : Phdr} {pa f o k : ℕ} {data : ℕ → ℕ} {mem : ℕ → ℕ → ℕ} (hlow : ph.filesz ≤ k)
    (hk : k < ph.memsz) (hplace : frameAddr f+o = pa+inPage ph+k) :
    store pa data (writesOf ph) mem f o = 0 := by
  rw [writesOf, if_pos (by omega), store, store, store, writeBytes, if_pos (by omega)]

end Pages

section Segment

variable {D M : Set ℕ} {m m' : Machine} {file : File} {ph : Phdr} {fuel : ℕ}

/-- What a segment leaves: its own bytes, and the bytes of the pages that were there before. -/
structure Placed (file : File) (ph : Phdr) (m m' : Machine) : Prop where
  present : Present file m' ph
  others : ∀ a < 2^47, ¬ OnPages ph a → seen m' m'.current a = seen m m.current a
  mapped : ∀ a < 2^47, seen m m.current a ≠ none → ¬ OnPages ph a
  areas : ∀ a, InAreas m.self.vmm.mmap a → InAreas m'.self.vmm.mmap a

theorem page_whole {l : Areas} (hw : WellFormed l) {n a : ℕ} (h : InAreas l (n*pageSize))
    (ha : pageOf a = n) : InAreas l a := by
  obtain ⟨v, hv, hlow, hhigh⟩ := h
  obtain ⟨⟨i, hi⟩, ⟨j, hj⟩, -⟩ := hw.2 v hv
  have hpage : pageSize = 4096 := rfl
  rw [pageOf] at ha
  rw [hpage] at hi hj hlow hhigh ha
  exact ⟨v, hv, by omega, by omega⟩

/-- The steps of a segment that is loaded. -/
theorem loadElfSegment_cases (hsized : Sized ph) (hs : loadElfSegment fuel m file ph = some (true, m')) :
    ∃ l pa b t s, AreaMachine.loadElfSegment m.self.vmm.mmap ⟨ph.vaddr, ph.memsz⟩ = some l ∧
      m.phys.buddy.allocPages (Nat.clog 2 (pages ph)) = some (pa, b) ∧
      mapPages (pages ph) m.self.tables (pageOf ph.vaddr) (mapNr pa) { m.phys with buddy := b } = some (t, s) ∧
      m' = (m.setAreas l).setTables t { s with
        mem := store pa (fun k => (file.bytes (ph.offset+k)).toNat) (writesOf ph) s.mem } := by
  rw [loadElfSegment] at hs
  cases ha : ElfSegments.loadElfSegment fuel m.self.vmm.mmap file ph with
  | none =>
    rw [ha] at hs
    cases hs
  | some a =>
    simp only [ha] at hs
    cases hr : a.request with
    | none =>
      rw [hr] at hs
      cases hs
    | some r =>
      simp only [hr] at hs
      cases hb : (m.setAreas a.areas).phys.buddy.allocPages r.order with
      | none =>
        rw [hb] at hs
        cases hs
      | some block =>
        obtain ⟨pa, b⟩ := block
        simp only [hb] at hs
        cases hmap : mapPages r.mapped (m.setAreas a.areas).self.tables (pageOf ph.vaddr) (mapNr pa)
            { (m.setAreas a.areas).phys with buddy := b } with
        | none =>
          rw [hmap] at hs
          cases hs
        | some made =>
          obtain ⟨t, s⟩ := made
          rw [hmap] at hs
          obtain ⟨hret, hm⟩ := Prod.mk.inj (Option.some.inj hs)
          obtain ⟨l, order, hmmap, hlog, hhas⟩ := ElfSegments.accepted_cases ha (of_decide_eq_true hret)
          -- the request of an accepted segment, with the order of its pages
          have hsmall : pages ph ≤ 1024 := hsized.1
          have hends : ¬ ElfSegments.Endless ph := by
            rintro ⟨hlow, -⟩
            omega
          obtain ⟨order', hlog', horder⟩ := ElfSegments.log_pages hends
          obtain rfl := ElfSegments.log_unique hlog hlog'
          obtain rfl := horder hsized.1
          rw [ElfSegments.loadElfSegment_eq hmmap hlog hhas] at ha
          obtain rfl := Option.some.inj ha
          obtain rfl := Option.some.inj hr
          refine ⟨l, pa, b, t, s, hmmap, hb, ?_, hm.symm⟩
          rw [(self_setAreas m l).1] at hmap
          exact hmap

theorem setTables_tables (m : Machine) (t : Pml4Table) (s : Phys) : (m.setTables t s).self.tables = t := by
  simp [Machine.setTables, Machine.setSelf, Machine.self]

theorem setTables_areas (m : Machine) (t : Pml4Table) (s : Phys) :
    (m.setTables t s).self.vmm.mmap = m.self.vmm.mmap := by
  simp [Machine.setTables, Machine.setSelf, Machine.self]

theorem seen_self (m : Machine) (a : ℕ) : seen m m.current a =
    (findPte m.self.tables (pageOf a)).map fun pte => m.phys.mem pte.frame (a%pageSize) := rfl

/-- The pages and the block of a segment that is loaded, and what the tables and the frames
hold when its bytes have been stored. -/
structure Filled (D M : Set ℕ) (file : File) (ph : Phdr) (m : Machine) (l : Areas) (pa : ℕ) (t : Pml4Table)
    (mem : ℕ → ℕ → ℕ) : Prop where
  pages : ∀ k < pages ph, pageOf ph.vaddr+k < 2^35 ∧
    ¬ InAreas m.self.vmm.mmap ((pageOf ph.vaddr+k)*pageSize) ∧ InAreas l ((pageOf ph.vaddr+k)*pageSize)
  block : pa = frameAddr (frameOf pa)
  find : ∀ k < 2^35, findPte t k = if pageOf ph.vaddr ≤ k ∧ k < pageOf ph.vaddr+ElfSegments.pages ph then
    some ⟨frameOf pa+(k-pageOf ph.vaddr), true⟩ else findPte m.self.tables k
  file : ∀ k < ph.filesz, ∀ f o, frameAddr f+o = pa+inPage ph+k → mem f o = (file.bytes (ph.offset+k)).toNat
  zero : ∀ k, ph.filesz ≤ k → k < ph.memsz → ∀ f o, frameAddr f+o = pa+inPage ph+k → mem f o = 0
  kept : ∀ n pte, findPte m.self.tables n = some pte → ∀ o < pageSize, mem pte.frame o = m.phys.mem pte.frame o

theorem loadElfSegment_filled (h : Held D M m) (hsized : Sized ph)
    (hs : loadElfSegment fuel m file ph = some (true, m')) (hin : Inside m.self) (halive : m.self.alive = true) :
    ∃ l pa t s, Filled D M file ph m l pa t s.mem ∧ WellFormed l ∧
      (∀ a, InAreas m.self.vmm.mmap a → InAreas l a) ∧ m' = (m.setAreas l).setTables t s ∧ Loading D M m m' := by
  obtain ⟨l, pa, b, t, s, hmmap, hb, hmap, rfl⟩ := loadElfSegment_cases hsized hs
  have hareas : WellFormed m.self.vmm.mmap := h.areas _ h.running.1
  have hload : Loading D M m _ := mapped_segment (g := ⟨⟨ph.vaddr, ph.memsz⟩, 0, fun _ => 0, 0⟩) h hin
    halive hmmap hb (by rw [(self_setAreas m l).1]; exact hmap)
    (store pa (fun k => (file.bytes (ph.offset+k)).toNat) (writesOf ph) s.mem)
  obtain ⟨hw, hcover, hpages⟩ := loadElfSegment_pages (g := ⟨⟨ph.vaddr, ph.memsz⟩, 0, fun _ => 0, 0⟩)
    hareas hmmap
  obtain ⟨hframes, hpa, hfresh⟩ := alloc_fresh h.frames hb
  obtain ⟨hfind, hmem⟩ := mapPages_find hframes (fun k hk => (hpages k hk).1) hmap
  rw [mapNr_eq] at hfind
  refine ⟨l, pa, t, _, ⟨hpages, hpa, hfind, fun k hk f o hplace => store_file hk hplace,
    fun k hlow hk f o hplace => store_zero hlow hk hplace, fun n pte hpte o ho => ?_⟩, hw, hcover, rfl, hload⟩
  have hpage : pageSize = 4096 := rfl
  -- a mapped frame is device memory, or has references and is not in the new block
  have hout : pte.frame ∉ M ∨ m.phys.buddy.ref pte.frame ≠ 0 := by
    by_cases hD : pte.frame ∈ D
    · exact Or.inl (h.device _ hD).1
    · obtain ⟨hM, -, hone⟩ := h.mapped h.running.1 hpte hD
      have henough := h.enough _ hM
      right
      omega
  have hapart : ¬ (frameOf pa ≤ pte.frame ∧ pte.frame < frameOf pa+2^Nat.clog 2 (pages ph)) := by
    rintro ⟨hlow, hhigh⟩
    rcases hout with hM | hused
    · exact hM (hfresh.inside _ hlow hhigh)
    · exact hused (hfresh.zero _ hlow hhigh)
  have hsame : s.mem pte.frame = m.phys.mem pte.frame := by
    apply hmem
    rw [hfresh.ref, if_neg hapart, add_zero]
    exact hout
  have hblock : pages ph ≤ 2^Nat.clog 2 (pages ph) := Nat.le_pow_clog (by decide) _
  have hend : inPage ph+max ph.filesz ph.memsz ≤ 2^Nat.clog 2 (pages ph)*pageSize :=
    hsized.2.trans (Nat.mul_le_mul_right pageSize hblock)
  refine (store_outside fun w hw => ?_).trans (congrFun hsame o)
  have hwrite := writesOf_inside hw
  rw [hpa, frameAddr, frameAddr, hpage]
  rw [hpage] at hend ho
  omega

/-- A segment of the file arrives in the process, and nothing else changes for it. -/
theorem filled_placed {l : Areas} {pa : ℕ} {t : Pml4Table} {s : Phys} (hinside : Inside m.self)
    (hareas : WellFormed m.self.vmm.mmap) (hsized : Sized ph) (hw : WellFormed l)
    (hcover : ∀ a, InAreas m.self.vmm.mmap a → InAreas l a) (h : Filled D M file ph m l pa t s.mem) :
    Placed file ph m ((m.setAreas l).setTables t s) := by
  have hpage : pageSize = 4096 := rfl
  have hin₀ : inPage ph = ph.vaddr%pageSize := rfl
  have htables := setTables_tables (m.setAreas l) t s
  have hmmap : ((m.setAreas l).setTables t s).self.vmm.mmap = l :=
    (setTables_areas _ t s).trans (self_setAreas m l).2
  have hnew : ∀ n < 2^35, findPte m.self.tables n ≠ none → ¬ (pageOf ph.vaddr ≤ n ∧ n < pageOf ph.vaddr+pages ph) := by
    intro n hn hsome hon
    obtain ⟨pte, hpte⟩ := Option.ne_none_iff_exists'.mp hsome
    obtain ⟨-, hvacant, -⟩ := h.pages (n-pageOf ph.vaddr) (by omega)
    rw [Nat.add_sub_cancel' hon.1] at hvacant
    exact hvacant ((inside_iff hareas).mp hinside n pte hn hpte)
  -- the page of a byte of the segment, and its place in the frame
  have hown : ∀ k, inPage ph+k < pages ph*pageSize → ph.vaddr+k < 2^47 ∧ InAreas l (ph.vaddr+k) ∧
      ∃ f, findPte t (pageOf (ph.vaddr+k)) = some ⟨f, true⟩ ∧
        frameAddr f+(ph.vaddr+k)%pageSize = pa+inPage ph+k := by
    intro k hk
    have hplace : pageOf (ph.vaddr+k) = pageOf ph.vaddr+(inPage ph+k)/pageSize := by
      rw [pageOf, pageOf, hin₀, hpage]
      omega
    have hlt : (inPage ph+k)/pageSize < pages ph := (Nat.div_lt_iff_lt_mul (by decide)).mpr hk
    obtain ⟨hlow, -, hcovered⟩ := h.pages _ hlt
    refine ⟨?_, page_whole hw hcovered hplace, frameOf pa+(inPage ph+k)/pageSize, ?_, ?_⟩
    · rw [← hplace, pageOf, hpage] at hlow
      omega
    · rw [hplace, h.find _ hlow, if_pos ⟨Nat.le_add_right _ _, Nat.add_lt_add_left hlt _⟩,
        Nat.add_sub_cancel_left]
    · rw [h.block, frameOf_frameAddr, frameAddr, frameAddr, hin₀, hpage]
      omega
  refine ⟨⟨fun k hk => (hown k (by have := hsized.2; omega)).1, fun k hk => ?_, fun k hlow hk => ?_,
    fun k hk => ?_⟩, fun a ha hoff => ?_, fun a ha hsome => ?_, fun a ha => ?_⟩
  · obtain ⟨-, -, f, hpte, hplace⟩ := hown k (by have := hsized.2; omega)
    rw [seen_self, htables, hpte]
    exact congrArg some (h.file k hk f _ hplace)
  · obtain ⟨-, -, f, hpte, hplace⟩ := hown k (by have := hsized.2; omega)
    rw [seen_self, htables, hpte]
    exact congrArg some (h.zero k hlow hk f _ hplace)
  · rw [hmmap]
    exact (hown k (by have := hsized.2; omega)).2.1
  · have hlow : pageOf a < 2^35 := by
      rw [pageOf, hpage]
      omega
    have hout : ¬ (pageOf ph.vaddr ≤ pageOf a ∧ pageOf a < pageOf ph.vaddr+pages ph) := hoff
    rw [seen_self, seen_self, htables, h.find _ hlow, if_neg hout]
    cases hpte : findPte m.self.tables (pageOf a) with
    | none => rfl
    | some pte => exact congrArg some (h.kept _ pte hpte _ (Nat.mod_lt _ (by decide)))
  · have hlow : pageOf a < 2^35 := by
      rw [pageOf, hpage]
      omega
    refine hnew _ hlow fun hnone => hsome ?_
    rw [seen_self, hnone]
    rfl
  · rw [hmmap]
    exact hcover a ha

theorem loadElfSegment_placed (h : Held D M m) (hin : Inside m.self) (halive : m.self.alive = true)
    (hsized : Sized ph) (hs : loadElfSegment fuel m file ph = some (true, m')) :
    Loading D M m m' ∧ Placed file ph m m' := by
  obtain ⟨l, pa, t, s, hfilled, hw, hcover, rfl, hload⟩ := loadElfSegment_filled h hsized hs hin halive
  exact ⟨hload, filled_placed hin (h.areas _ h.running.1) hsized hw hcover hfilled⟩

/-- A segment that is there stays there. -/
theorem present_placed {ph' : Phdr} (h : Present file m ph) (hplaced : Placed file ph' m m') :
    Present file m' ph := by
  have hsame : ∀ k < max ph.filesz ph.memsz, seen m m.current (ph.vaddr+k) ≠ none →
      seen m' m'.current (ph.vaddr+k) = seen m m.current (ph.vaddr+k) := by
    intro k hk hsome
    exact hplaced.others _ (h.low k hk) (hplaced.mapped _ (h.low k hk) hsome)
  refine ⟨h.low, fun k hk => ?_, fun k hlow hk => ?_, fun k hk => hplaced.areas _ (h.areas k hk)⟩
  · have hfile := h.file k hk
    rw [hsame k (by omega) (by rw [hfile]; exact Option.some_ne_none _), hfile]
  · have hzero := h.zero k hlow hk
    rw [hsame k (by omega) (by rw [hzero]; exact Option.some_ne_none _), hzero]

end Segment

/-! ## The loop -/

section Loop

variable {D M : Set ℕ} {m₀ : Machine} {file : File} {fuel k o : ℕ} {x r : Loader}

/-- The headers that the loop would pass from an offset on. -/
def headersFrom (file : File) (k o : ℕ) : List Phdr :=
  (List.range k).map fun i => phdrAt file ((o+phdrSize*i)%2^64)

theorem headersFrom_succ (ho : o < 2^64) : headersFrom file (k+1) o =
    phdrAt file o :: headersFrom file k ((o+phdrSize)%2^64) := by
  rw [headersFrom, List.range_succ_eq_map, List.map_cons, List.map_map, Nat.mul_zero, Nat.add_zero,
    Nat.mod_eq_of_lt ho, headersFrom]
  congr 1
  apply List.map_congr_left
  intro i _
  have hplace : (o+phdrSize*(i+1))%2^64 = ((o+phdrSize)%2^64+phdrSize*i)%2^64 := by
    rw [Nat.mod_add_mod, Nat.mul_succ]
    congr 1
    omega
  exact congrArg (phdrAt file) hplace

theorem loadFrom_read (hs : loadFrom fuel file (k+1) o x = some r) (hok : r.ok = true) :
    ¬ (readFileFrom file o phdrSize).1 = false := by
  intro hread
  rw [loadFrom, if_pos hread] at hs
  obtain rfl := Option.some.inj hs
  cases hok

theorem loadFrom_skip (hread : ¬ (readFileFrom file o phdrSize).1 = false) (hno : ¬ Loadable (phdrAt file o)) :
    loadFrom fuel file (k+1) o x = loadFrom fuel file k o x := by
  rw [loadFrom, if_neg hread]
  exact if_pos hno

theorem loadFrom_load (hread : ¬ (readFileFrom file o phdrSize).1 = false) (hload : Loadable (phdrAt file o)) :
    loadFrom fuel file (k+1) o x =
      match loadElfSegment fuel x.machine file (phdrAt file o) with
      | none => none
      | some (false, m) => some { x with ok := false, machine := m }
      | some (true, m) => loadFrom fuel file k ((o+phdrSize)%2^64)
          ⟨true, x.loaded++[phdrAt file o], checkSegmentBound (phdrAt file o) x.bounds, m⟩ := by
  rw [loadFrom, if_neg hread]
  exact if_neg (not_not.mpr hload)

/-- At a header of another type the loop stays where it is. -/
theorem loadFrom_stuck (hno : ¬ Loadable (phdrAt file o)) (hs : loadFrom fuel file k o x = some r)
    (hok : r.ok = true) : r = x := by
  induction k with
  | zero => exact (Option.some.inj hs).symm
  | succ k ih => exact ih ((loadFrom_skip (loadFrom_read hs hok) hno).symm.trans hs)

/-- A property of the loader that each loaded segment keeps. -/
theorem loadFrom_keeps {P : Loader → Prop}
    (hstep : ∀ x ph m', P x → loadElfSegment fuel x.machine file ph = some (true, m') →
      P ⟨true, x.loaded++[ph], checkSegmentBound ph x.bounds, m'⟩)
    (ho : o < 2^64) (hs : loadFrom fuel file k o x = some r) (hok : r.ok = true) :
    r.loaded = x.loaded++(headersFrom file k o).takeWhile (Loadable ·) ∧ (P x → P r) := by
  induction k generalizing o x with
  | zero =>
    obtain rfl := Option.some.inj hs
    exact ⟨(List.append_nil _).symm, id⟩
  | succ k ih =>
    have hread := loadFrom_read hs hok
    rw [headersFrom_succ ho]
    by_cases hload : Loadable (phdrAt file o)
    · rw [loadFrom_load hread hload] at hs
      simp only [List.takeWhile_cons, hload, decide_true, ite_true]
      cases hsegment : loadElfSegment fuel x.machine file (phdrAt file o) with
      | none =>
        rw [hsegment] at hs
        cases hs
      | some done =>
        obtain ⟨ok, m'⟩ := done
        rw [hsegment] at hs
        cases ok with
        | false =>
          obtain rfl := Option.some.inj hs
          cases hok
        | true =>
          obtain ⟨hloaded, hkeep⟩ := ih (Nat.mod_lt _ (by decide)) hs
          refine ⟨?_, fun hx => hkeep (hstep x _ m' hx hsegment)⟩
          rw [hloaded, List.append_assoc, List.singleton_append]
    · have hstay := loadFrom_stuck hload hs hok
      rw [List.takeWhile_cons_of_neg (by simpa using hload), List.append_nil, hstay]
      exact ⟨rfl, id⟩

/-- What the loader has done so far, from the machine `m₀` on. -/
structure Good (D M : Set ℕ) (file : File) (m₀ : Machine) (x : Loader) : Prop where
  loading : Loading D M m₀ x.machine
  present : ∀ ph ∈ x.loaded, Present file x.machine ph
  others : ∀ a < 2^47, (∀ ph ∈ x.loaded, ¬ OnPages ph a) →
    seen x.machine x.machine.current a = seen m₀ m₀.current a
  brk_le : ∀ ph ∈ x.loaded, ph.vaddr+ph.memsz ≤ x.bounds.elfBrk
  brk_eq : x.bounds.elfBrk = 0 ∨ ∃ ph ∈ x.loaded, x.bounds.elfBrk = ph.vaddr+ph.memsz

theorem present_end {m : Machine} {ph : Phdr} (h : Present file m ph) : (ph.vaddr+ph.memsz)%2^64 = ph.vaddr+ph.memsz := by
  apply Nat.mod_eq_of_lt
  have hvaddr := ph.vaddr_lt
  by_cases hmem : ph.memsz = 0
  · omega
  · have hlast := h.low (ph.memsz-1) (by omega)
    omega

theorem good_step {ph : Phdr} {m' : Machine} (h : Good D M file m₀ x) (hsized : Sized ph)
    (hs : loadElfSegment fuel x.machine file ph = some (true, m')) :
    Good D M file m₀ ⟨true, x.loaded++[ph], checkSegmentBound ph x.bounds, m'⟩ := by
  obtain ⟨hload, hplaced⟩ := loadElfSegment_placed h.loading.held h.loading.inside h.loading.alive hsized hs
  have hend := present_end hplaced.present
  have hbrk : (checkSegmentBound ph x.bounds).elfBrk = max x.bounds.elfBrk (ph.vaddr+ph.memsz) := by
    simp only [checkSegmentBound, hend]
    split_ifs <;> omega
  refine ⟨h.loading.trans hload, fun ph' hph => ?_, fun a ha hoff => ?_, fun ph' hph => ?_, ?_⟩
  · rcases List.mem_append.mp hph with hold | hnew
    · exact present_placed (h.present ph' hold) hplaced
    · obtain rfl := List.mem_singleton.mp hnew
      exact hplaced.present
  · rw [hplaced.others a ha (hoff ph (List.mem_append_right _ (List.mem_singleton_self ph)))]
    exact h.others a ha fun ph' hph => hoff ph' (List.mem_append_left _ hph)
  · rw [hbrk]
    rcases List.mem_append.mp hph with hold | hnew
    · exact (h.brk_le ph' hold).trans (Nat.le_max_left _ _)
    · obtain rfl := List.mem_singleton.mp hnew
      exact Nat.le_max_right _ _
  · rw [hbrk]
    rcases Nat.le_total (ph.vaddr+ph.memsz) x.bounds.elfBrk with hle | hle
    · rw [Nat.max_eq_left hle]
      rcases h.brk_eq with hzero | ⟨ph', hph, heq⟩
      · exact Or.inl hzero
      · exact Or.inr ⟨ph', List.mem_append_left _ hph, heq⟩
    · rw [Nat.max_eq_right hle]
      exact Or.inr ⟨ph, List.mem_append_right _ (List.mem_singleton_self ph), rfl⟩

theorem pairwise_later {l : List Phdr} (h : ∀ later ∈ l, ¬ Loadable later) :
    l.Pairwise fun ph later => ¬ Loadable ph → ¬ Loadable later := by
  induction l with
  | nil => exact List.Pairwise.nil
  | cons ph l ih =>
    refine List.pairwise_cons.mpr ⟨fun later hl _ => h later (List.mem_cons_of_mem _ hl), ?_⟩
    exact ih fun later hl => h later (List.mem_cons_of_mem _ hl)

/-- The first loadable headers are all of them when none is behind another header. -/
theorem takeWhile_filter (l : List Phdr) : l.takeWhile (Loadable ·) = l.filter (Loadable ·) ↔
    l.Pairwise fun ph later => ¬ Loadable ph → ¬ Loadable later := by
  induction l with
  | nil => simp
  | cons ph l ih =>
    rw [List.pairwise_cons]
    by_cases hload : Loadable ph
    · simp only [List.takeWhile_cons, List.filter_cons, decide_true, ite_true, List.cons.injEq, true_and, hload, not_true_eq_false, false_implies, implies_true, ih]
    · rw [List.takeWhile_cons_of_neg (by simpa using hload), List.filter_cons_of_neg (by simpa using hload)]
      simp only [hload, not_false_eq_true, true_implies]
      constructor
      · intro hnil
        have hnone := List.filter_eq_nil_iff.mp hnil.symm
        have hno : ∀ later ∈ l, ¬ Loadable later := fun later hl hc => hnone later hl (decide_eq_true hc)
        exact ⟨hno, pairwise_later hno⟩
      · rintro ⟨hno, -⟩
        exact (List.filter_eq_nil_iff.mpr fun later hl hc => hno later hl (of_decide_eq_true hc)).symm

end Loop

/-! ## The whole file -/

section Load

variable {D M : Set ℕ} {m : Machine} {file : File} {fuel : ℕ} {x : Loader}

/-- What the loader is for: the loadable segments are in the process, the rest of its memory
is as it was, and the heap starts behind the last of them. -/
structure Complete (file : File) (m : Machine) (x : Loader) : Prop where
  loaded : x.loaded = loadable file
  present : ∀ ph ∈ loadable file, Present file x.machine ph
  others : ∀ a < 2^47, (∀ ph ∈ loadable file, ¬ OnPages ph a) →
    seen x.machine x.machine.current a = seen m m.current a
  brk : loadable file ≠ [] →
    IsGreatest {b | ∃ ph ∈ loadable file, b = ph.vaddr+ph.memsz} x.machine.self.vmm.startBrk

theorem headers_eq (file : File) :
    headers file = headersFrom file (word file.bytes 56 2) (word file.bytes 32 8) := rfl

theorem load_cases (hs : load fuel m file = some x) (hok : x.ok = true) :
    ∃ r, loadFrom fuel file (word file.bytes 56 2) (word file.bytes 32 8) ⟨true, [], Bounds.none, m⟩ = some r ∧
      r.ok = true ∧ x = { r with machine := setSegmentBound r.machine r.bounds } := by
  rw [load] at hs
  split_ifs at hs with hbad
  · obtain rfl := Option.some.inj hs
    cases hok
  · rw [loadElfBinary] at hs
    cases hfrom : loadFrom fuel file (word file.bytes 56 2) (word file.bytes 32 8) ⟨true, [], Bounds.none, m⟩ with
    | none =>
      rw [hfrom] at hs
      cases hs
    | some r =>
      simp only [hfrom] at hs
      split_ifs at hs with hr
      · exact ⟨r, rfl, hr, (Option.some.inj hs).symm⟩
      · obtain rfl := Option.some.inj hs
        exact absurd hok hr

theorem setSegmentBound_self (m : Machine) (b : Bounds) : (setSegmentBound m b).self.tables = m.self.tables ∧
    (setSegmentBound m b).self.vmm.mmap = m.self.vmm.mmap ∧ (setSegmentBound m b).self.vmm.startBrk = b.elfBrk := by
  simp [setSegmentBound, Machine.setSelf, Machine.self]

theorem setSegmentBound_seen (m : Machine) (b : Bounds) (a : ℕ) :
    seen (setSegmentBound m b) (setSegmentBound m b).current a = seen m m.current a := by
  rw [seen_self, seen_self, (setSegmentBound_self m b).1]
  rfl

theorem present_bound {ph : Phdr} (h : Present file m ph) (b : Bounds) :
    Present file (setSegmentBound m b) ph := by
  refine ⟨h.low, fun k hk => ?_, fun k hlow hk => ?_, fun k hk => ?_⟩
  · rw [setSegmentBound_seen, h.file k hk]
  · rw [setSegmentBound_seen, h.zero k hlow hk]
  · rw [(setSegmentBound_self m b).2.1]
    exact h.areas k hk

theorem good_start (h : Held D M m) (hin : Inside m.self) (halive : m.self.alive = true) :
    Good D M file m ⟨true, [], Bounds.none, m⟩ := by
  refine ⟨Loading.refl h hin halive, fun ph hph => ?_, fun a _ _ => rfl, fun ph hph => ?_, Or.inl rfl⟩
  · cases hph
  · cases hph

theorem good_complete {r : Loader} (h : Good D M file m r) (hall : r.loaded = loadable file) :
    Complete file m { r with machine := setSegmentBound r.machine r.bounds } := by
  have hbrk := (setSegmentBound_self r.machine r.bounds).2.2
  refine ⟨hall, fun ph hph => ?_, fun a ha hoff => ?_, fun hsome => ⟨?_, ?_⟩⟩
  · exact present_bound (h.present ph (hall ▸ hph)) r.bounds
  · rw [setSegmentBound_seen, h.others a ha (hall ▸ hoff)]
  · change ∃ ph ∈ loadable file, (setSegmentBound r.machine r.bounds).self.vmm.startBrk = ph.vaddr+ph.memsz
    rw [hbrk]
    rcases h.brk_eq with hzero | ⟨ph, hph, heq⟩
    · -- an empty bound: every segment ends at the address zero
      obtain ⟨ph, hph⟩ := List.exists_mem_of_ne_nil _ hsome
      have hle := h.brk_le ph (hall ▸ hph)
      exact ⟨ph, hph, by omega⟩
    · exact ⟨ph, hall ▸ hph, heq⟩
  · rintro b ⟨ph, hph, rfl⟩
    change ph.vaddr+ph.memsz ≤ (setSegmentBound r.machine r.bounds).self.vmm.startBrk
    rw [hbrk]
    exact h.brk_le ph (hall ▸ hph)

/-- When a file has been loaded, exactly its loadable segments are, each once and in their
order, if none of them is behind a header of another type; and then all is in place. -/
theorem elf_loaded (hs : load fuel m file = some x) (hok : x.ok = true) (h : Held D M m) (hin : Inside m.self)
    (halive : m.self.alive = true) :
    (x.loaded = loadable file ↔ InFront file) ∧
      (InFront file → (∀ ph ∈ loadable file, Sized ph) → Complete file m x) := by
  obtain ⟨r, hfrom, hr, rfl⟩ := load_cases hs hok
  obtain ⟨hloaded, hkeep⟩ := loadFrom_keeps (P := fun y => (∀ ph ∈ y.loaded, Sized ph) → Good D M file m y)
    (fun y ph m' hy hsegment hsized => by
      have hbefore := hy fun ph' hph => hsized ph' (List.mem_append_left _ hph)
      exact good_step hbefore (hsized ph (List.mem_append_right _ (List.mem_singleton_self ph))) hsegment)
    (word_lt _ _ 8) hfrom hr
  rw [List.nil_append, ← headers_eq] at hloaded
  have hiff : r.loaded = loadable file ↔ InFront file := by
    rw [hloaded]
    exact takeWhile_filter (headers file)
  refine ⟨hiff, fun hfront hsized => ?_⟩
  have hall := hiff.mpr hfront
  exact good_complete (hkeep (fun _ => good_start h hin halive) (hall ▸ hsized)) hall

end Load

/-- A file with a note and a segment, and the places of their headers. -/
def noted (note segment : ℕ) : File :=
  ⟨0x1000, putWord 0 4 elfMagic (putWord 32 8 64 (putWord 56 2 2 (putWord note 4 4 (putWord segment 4 ptLoad
    (putWord (segment+16) 8 0x400000 (putWord (segment+32) 8 0x10 (putWord (segment+40) 8 0x20
      fun _ => 0))))))), by decide⟩

theorem origin_used : Held ∅ {f | BuddyBoot.Managed BuddyRun.small f} CopyOnWrite.origin ∧
    Inside CopyOnWrite.origin.self := by
  refine ⟨CopyOnWrite.start_sound CopyOnWrite.origin_start, ?_⟩
  intro n pte _ hpte
  have hempty : findPte CopyOnWrite.origin.self.tables n = none := empty_find 2047 n
  rw [hempty] at hpte
  cases hpte

theorem elf_loaded_front : ∃ x, load 4 CopyOnWrite.origin (noted 120 64) = some x ∧
    Complete (noted 120 64) CopyOnWrite.origin x := by
  have hall : (load 4 CopyOnWrite.origin (noted 120 64)).map Loader.ok = some true := by decide +kernel
  obtain ⟨x, hs, hok⟩ := Option.map_eq_some_iff.mp hall
  have hfront : InFront (noted 120 64) := by
    rw [InFront]
    decide +kernel
  have hsized : ∀ ph ∈ loadable (noted 120 64), Sized ph := by
    simp only [Sized]
    decide +kernel
  exact ⟨x, hs, (elf_loaded hs hok origin_used.1 origin_used.2 rfl).2 hfront hsized⟩

/-- The loop reads the note twice: the file counts as loaded, without its segment. -/
theorem note_stalls : ¬ ∀ x, load 4 CopyOnWrite.origin (noted 64 120) = some x → x.ok = true →
    Complete (noted 64 120) CopyOnWrite.origin x := by
  intro hall
  have hnone : (load 4 CopyOnWrite.origin (noted 64 120)).map (fun x => (x.ok, x.loaded.length)) =
      some (true, 0) := by decide +kernel
  obtain ⟨x, hs, hx⟩ := Option.map_eq_some_iff.mp hnone
  obtain ⟨hok, hlength⟩ := Prod.mk.inj hx
  have hloaded := congrArg List.length (hall x hs hok).loaded
  have hone : (loadable (noted 64 120)).length = 1 := by decide +kernel
  omega

end BabyOS.ElfLoader
