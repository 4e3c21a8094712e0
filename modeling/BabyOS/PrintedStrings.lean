import BabyOS.FormattedOutput
import BabyOS.TableWords

/-!
# Strings that are printed

`sys_print` looks up the physical address of the first byte of a string and reads
the string from there on through the direct mapping. The bytes of the memory stand
apart from the words of the tables.
-/

set_option autoImplicit false

namespace BabyOS.PrintedStrings
open BabyOS.BuddyMachine BabyOS.BuddyArithmetic BabyOS.ByteWords BabyOS.NumberRendering
open BabyOS.StoredTables BabyOS.TableWords
open BabyOS.FormattedOutput (Arguments vsprintf)

/-! ## The caller -/

/-- The frame that a page of the user half has. -/
def frameAt (s : Memory) (pml4Table n : ℕ) : Option ℕ :=
  (pml4Level.find (tree s pml4Table) n).map fun pte => mapNr (pte &&& addrMask).toNat

/-- The direct mapping has room for so many frames. -/
def frameLimit : ℕ := 2^35

/-- A process, the frames that are mapped directly, and the address of the array
`buffer` on its kernel stack. -/
structure Caller where
  tables : Memory
  pml4Table : ℕ
  low : ∀ n f, frameAt tables pml4Table n = some f → f < frameLimit
  direct : ℕ → Bool
  buffer : BitVec 64
  buffer_ne : buffer ≠ 0

/-- The bytes by their physical addresses, and by their virtual addresses those that
a page gets when it is faulted in. -/
structure Contents where
  physical : ℕ → Byte
  fresh : ℕ → Byte

/-- What the process has at an address. -/
def userByte (x : Caller) (c : Contents) (va : ℕ) : Byte :=
  match frameAt x.tables x.pml4Table (va/4096) with
  | none => c.fresh va
  | some f => c.physical (f*4096+va%4096)

/-- What the kernel has at an address, if it is in the direct mapping. -/
def load (x : Caller) (c : Contents) (v : ℕ) : Option Byte :=
  if kernelBase ≤ v ∧ v < 2^64 ∧ x.direct ((v-kernelBase)/4096) then some (c.physical (v-kernelBase)) else none

/-! ## The system call -/

/-- The array from `dst` on after the copy; a store behind it has no result. -/
def strcpy (load : ℕ → Option Byte) : List Byte → ℕ → Option (List Byte)
  | [], _ => none
  | _ :: dst, v => (load v).bind fun b => if b = 0 then some (0 :: dst) else (strcpy load dst (v+1)).map (b :: ·)

/-- The bytes of an array before its NUL. -/
def stringOf (buf : List Byte) : List Byte := buf.takeWhile (· ≠ 0)

theorem stringOf_nonzero (buf : List Byte) : ∀ c ∈ stringOf buf, c ≠ 0 := by
  intro c hc
  simpa using List.mem_takeWhile_imp hc

theorem stringOf_cons {c : Byte} (hc : c ≠ 0) (buf : List Byte) : stringOf (c :: buf) = c :: stringOf buf := by
  rw [stringOf, List.takeWhile_cons, if_pos (decide_eq_true hc)]
  rfl

def arguments (address : BitVec 64) (buf : List Byte) : Arguments where
  slot := fun _ => address
  string := fun _ => stringOf buf
  nonzero := fun _ => stringOf_nonzero buf

/-- `c_buffer_size` of the console. -/
def consoleBufferSize : ℕ := 1024

/-- The characters that `kprintf` puts on the console for "%s". -/
def kprintf (args : Arguments) : Option (List Byte) :=
  (vsprintf .kernel (some [chr '%', chr 's']) args (List.replicate consoleBufferSize 0)).map fun r => r.2.take r.1

/-- `P2V` of the physical address of the first byte. -/
def pointer (x : Caller) (va : ℕ) : ℕ := (vaToPa x.tables x.pml4Table va+BitVec.ofNat 64 kernelBase).toNat

def sysPrint (x : Caller) (c : Contents) (va : ℕ) : Option (List Byte) :=
  (strcpy (load x c) (List.replicate 512 0) (pointer x va)).bind fun buf => kprintf (arguments x.buffer buf)

/-! ## The string of the process -/

/-- Where a string is: in the user half, and of fewer than 512 characters. -/
structure Place where
  va : ℕ
  length : ℕ
  below : va+length < userVmSize
  short : length < 512

/-- The string of the process has its NUL behind so many characters. -/
def Ends (x : Caller) (c : Contents) (p : Place) : Prop :=
  (∀ k < p.length, userByte x c (p.va+k) ≠ 0) ∧ userByte x c (p.va+p.length) = 0

def text (x : Caller) (c : Contents) (p : Place) : List Byte :=
  (List.range p.length).map fun k => userByte x c (p.va+k)

/-- The page of the first byte has a frame in the direct mapping. If the string or its
NUL is in the next page too, this page has the next frame, also in the direct mapping. -/
def Follows (x : Caller) (p : Place) : Prop :=
  ∃ f, frameAt x.tables x.pml4Table (p.va/4096) = some f ∧ x.direct f = true ∧
    (4096 ≤ p.va%4096+p.length →
      frameAt x.tables x.pml4Table (p.va/4096+1) = some (f+1) ∧ x.direct (f+1) = true)

/-! ## Copies -/

section Copies

variable {load : ℕ → Option Byte} {dst buf l : List Byte} {v : ℕ}

/-- What was copied is what was read up to the first NUL. -/
theorem strcpy_some (h : strcpy load dst v = some buf) :
    (∀ k (hk : k < (stringOf buf).length), load (v+k) = some ((stringOf buf).get ⟨k, hk⟩)) ∧
      load (v+(stringOf buf).length) = some 0 := by
  induction dst generalizing v buf with
  | nil => cases h
  | cons d dst ih =>
    obtain ⟨b, hb, hrest⟩ := Option.bind_eq_some_iff.mp h
    by_cases hz : b = 0
    · rw [if_pos hz] at hrest
      have hnil : stringOf buf = [] := by
        rw [← Option.some.inj hrest]
        rfl
      rw [hnil]
      refine ⟨fun k hk => absurd hk (Nat.not_lt_zero k), ?_⟩
      rw [List.length_nil, Nat.add_zero, hb, hz]
    · rw [if_neg hz] at hrest
      obtain ⟨out, hout, rfl⟩ := Option.map_eq_some_iff.mp hrest
      have ⟨hread, hend⟩ := ih hout
      rw [stringOf_cons hz]
      constructor
      · intro k hk
        cases k with
        | zero => exact hb
        | succ k =>
          have hk' : k < (stringOf out).length := Nat.lt_of_succ_lt_succ hk
          have := hread k hk'
          rw [show v+(k+1) = v+1+k by omega, this]
          rfl
      · rw [List.length_cons, show v+((stringOf out).length+1) = v+1+(stringOf out).length by omega]
        exact hend

theorem strcpy_length (h : strcpy load dst v = some buf) : buf.length = dst.length := by
  induction dst generalizing v buf with
  | nil => cases h
  | cons d dst ih =>
    obtain ⟨b, -, hrest⟩ := Option.bind_eq_some_iff.mp h
    by_cases hz : b = 0
    · rw [if_pos hz] at hrest
      rw [← Option.some.inj hrest]
      rfl
    · rw [if_neg hz] at hrest
      obtain ⟨out, hout, rfl⟩ := Option.map_eq_some_iff.mp hrest
      exact congrArg Nat.succ (ih hout)

/-- A string that is read and has room is copied. -/
theorem strcpy_reads (hl : ∀ c ∈ l, c ≠ 0) (hroom : l.length < dst.length)
    (hread : ∀ k (hk : k < l.length), load (v+k) = some (l.get ⟨k, hk⟩)) (hend : load (v+l.length) = some 0) :
    ∃ buf, strcpy load dst v = some buf ∧ stringOf buf = l := by
  induction l generalizing v dst with
  | nil =>
    cases dst with
    | nil => cases hroom
    | cons d dst =>
      have hzero : load v = some 0 := hend
      refine ⟨0 :: dst, ?_, rfl⟩
      rw [strcpy, hzero, Option.bind_some, if_pos rfl]
  | cons c l ih =>
    cases dst with
    | nil => cases hroom
    | cons d dst =>
      have hfirst : load v = some c := hread 0 (Nat.succ_pos _)
      have hc : c ≠ 0 := hl c List.mem_cons_self
      have ⟨buf, hbuf, hstring⟩ := @ih dst (v+1) (fun e he => hl e (List.mem_cons_of_mem _ he))
        (Nat.lt_of_succ_lt_succ hroom)
        (fun k hk => by
          rw [show v+1+k = v+(k+1) by omega]
          exact hread (k+1) (Nat.succ_lt_succ hk))
        (by
          rw [show v+1+l.length = v+(l.length+1) by omega]
          exact hend)
      refine ⟨c :: buf, ?_, ?_⟩
      · rw [strcpy, hfirst, Option.bind_some, if_neg hc, hbuf, Option.map_some]
      · rw [stringOf_cons hc, hstring]

end Copies

/-! ## The console -/

/-- On a buffer of zeros the text comes out as it is. -/
theorem kprintf_eq (address : BitVec 64) (hne : address ≠ 0) (buf : List Byte)
    (hlen : (stringOf buf).length < consoleBufferSize) :
    kprintf (arguments address buf) = some (stringOf buf) := by
  generalize hl : stringOf buf = l at *
  have hslot : (arguments address buf).slot 0 ≠ 0 := hne
  have hpieces : FormattedOutput.pieces .kernel (some [chr '%', chr 's']) (arguments address buf) =
      [.width 0, .string l 0] := by
    have hitems : FormattedOutput.pieces .kernel (some [chr '%', chr 's']) (arguments address buf) =
        .width 0 :: (if (arguments address buf).slot 0 = 0 then []
          else [.string ((arguments address buf).string ((arguments address buf).slot 0)) 0])++[] := rfl
    rw [hitems, if_neg hslot, List.append_nil]
    exact congrArg (fun l => [FormattedOutput.Piece.width 0, .string l 0]) hl
  have htext : FormattedOutput.textOf [.width 0, .string l 0] = l := by
    simp [FormattedOutput.textOf, FormattedOutput.Piece.text, behind]
  have hzero : ∀ k < consoleBufferSize, (List.replicate consoleBufferSize (0 : Byte))[k]? = some 0 := by
    intro k hk
    rw [List.getElem?_replicate, if_pos hk]
  have hset : (List.replicate consoleBufferSize (0 : Byte)).set 0 0 = List.replicate consoleBufferSize 0 :=
    List.set_replicate_self
  have hpos : 0 < (List.replicate consoleBufferSize (0 : Byte)).length := by
    rw [List.length_replicate]
    exact Nat.zero_lt_of_lt hlen
  have hrun := @FormattedOutput.pieces_stored [.width 0, .string l 0] (List.replicate consoleBufferSize 0) []
    ⟨Nat.two_pow_pos 31, fun _ => .inl rfl, trivial⟩ (hzero 0 (Nat.zero_lt_of_lt hlen))
    (by rw [htext, List.length_replicate, List.length_nil, Nat.zero_add]; exact hlen)
    (by rw [htext, List.length_nil, Nat.zero_add]; exact hlen.trans (by decide))
    (by rw [htext, List.length_nil, Nat.zero_add]; exact hzero _ hlen)
  rw [htext, List.nil_append, List.length_nil, Nat.zero_add, FormattedOutput.holding_nil] at hrun
  rw [kprintf, FormattedOutput.vsprintf_eq _ _ _ hpos, hset, hpieces, hrun, Option.map_some, Option.map_some]
  exact congrArg some List.take_left

/-! ## Addresses -/

section Addresses

variable (x : Caller) {va f : ℕ}

/-- The direct mapping reaches to the end of the address space. -/
theorem kernelBase_room : kernelBase+2^47 = 2^64 := by
  norm_num [kernelBase]

theorem pointer_absent (hva : va < userVmSize) (h : frameAt x.tables x.pml4Table (va/4096) = none) :
    pointer x va = kernelBase-1 := by
  rw [frameAt, Option.map_eq_none_iff] at h
  have hall : ((-1 : Word)+BitVec.ofNat 64 kernelBase).toNat = kernelBase-1 := by decide +kernel
  rw [pointer, vaToPa_eq _ _ hva, h]
  exact hall

theorem pointer_present (hva : va < userVmSize) (h : frameAt x.tables x.pml4Table (va/4096) = some f) :
    pointer x va = kernelBase+(f*4096+va%4096) := by
  have hlow := x.low _ _ h
  obtain ⟨pte, hpte, hf⟩ := Option.map_eq_some_iff.mp h
  have hpa : (pte &&& addrMask).toNat = f*4096 := by
    rw [masked_toNat, mapNr_eq, frameOf, pageSize] at hf
    rw [masked_toNat]
    omega
  rw [pointer, vaToPa_eq _ _ hva, hpte]
  dsimp only
  have hroom := kernelBase_room
  rw [frameLimit] at hlow
  generalize kernelBase = base at *
  rw [BitVec.toNat_add, BitVec.toNat_add, BitVec.toNat_ofNat, BitVec.toNat_ofNat, hpa]
  omega

/-- The kernel has there what the process has, as long as the page is in the direct mapping. -/
theorem load_direct (c : Contents) (h : frameAt x.tables x.pml4Table (va/4096) = some f)
    (hdirect : x.direct f = true) : load x c (kernelBase+(f*4096+va%4096)) = some (userByte x c va) := by
  have hlow := x.low _ _ h
  have hframe : (f*4096+va%4096)/4096 = f := by omega
  have hroom := kernelBase_room
  rw [frameLimit] at hlow
  rw [load, Nat.add_sub_cancel_left, hframe, if_pos ⟨Nat.le_add_right _ _, by omega, hdirect⟩, userByte, h]

theorem load_some {c : Contents} {a : ℕ} {b : Byte} (h : load x c (kernelBase+a) = some b) :
    x.direct (a/4096) = true ∧ c.physical a = b := by
  rw [load, Nat.add_sub_cancel_left] at h
  split at h
  next hin => exact ⟨hin.2.2, Option.some.inj h⟩
  next => cases h

end Addresses

/-! ## Printing -/

section Printing

variable {x : Caller} {p : Place} {c : Contents}

theorem text_length (x : Caller) (c : Contents) (p : Place) : (text x c p).length = p.length := by
  rw [text, List.length_map, List.length_range]

theorem text_get {k : ℕ} (hk : k < (text x c p).length) :
    (text x c p).get ⟨k, hk⟩ = userByte x c (p.va+k) := by
  simp [text]

theorem text_nonzero (he : Ends x c p) : ∀ b ∈ text x c p, b ≠ 0 := by
  intro b hb
  obtain ⟨k, hk, rfl⟩ := List.mem_map.mp hb
  exact he.1 k (List.mem_range.mp hk)

/-- The kernel finds the whole string behind its first byte. -/
theorem load_string (h : Follows x p) (c : Contents) :
    ∀ k ≤ p.length, load x c (pointer x p.va+k) = some (userByte x c (p.va+k)) := by
  obtain ⟨f, hf, hdirect, hnext⟩ := h
  have hshort := p.short
  have hbelow := p.below
  rw [pointer_present x (by omega) hf]
  intro k hk
  by_cases hin : p.va%4096+k < 4096
  · have hpage : (p.va+k)/4096 = p.va/4096 := by omega
    have hload := load_direct x c (by rw [hpage]; exact hf) hdirect
    rw [show (p.va+k)%4096 = p.va%4096+k by omega] at hload
    rw [← hload]
    congr 1
    omega
  · have ⟨hg, hdirect'⟩ := hnext (by omega)
    have hpage : (p.va+k)/4096 = p.va/4096+1 := by omega
    have hload := load_direct x c (by rw [hpage]; exact hg) hdirect'
    rw [← hload]
    congr 1
    omega

theorem prints_of_follows (h : Follows x p) (he : Ends x c p) : sysPrint x c p.va = some (text x c p) := by
  have hload := load_string h c
  have hshort := p.short
  have ⟨buf, hbuf, hstring⟩ := @strcpy_reads (load x c) (List.replicate 512 0) (text x c p) (pointer x p.va)
    (text_nonzero he) (by rw [text_length, List.length_replicate]; exact hshort)
    (fun k hk => by
      rw [text_length] at hk
      rw [hload k hk.le, text_get])
    (by rw [text_length, hload p.length le_rfl, he.2])
  rw [sysPrint, hbuf, Option.bind_some, kprintf_eq _ x.buffer_ne, hstring]
  rw [hstring, text_length]
  exact hshort.trans (by decide)

/-- What comes out right was read right. -/
theorem load_of_prints (he : Ends x c p) (h : sysPrint x c p.va = some (text x c p)) :
    ∀ k ≤ p.length, load x c (pointer x p.va+k) = some (userByte x c (p.va+k)) := by
  obtain ⟨buf, hbuf, hprint⟩ := Option.bind_eq_some_iff.mp h
  have hlen := strcpy_length hbuf
  rw [List.length_replicate] at hlen
  have hle : (stringOf buf).length ≤ buf.length := (List.takeWhile_sublist _).length_le
  rw [kprintf_eq _ x.buffer_ne buf (by rw [consoleBufferSize]; omega)] at hprint
  have hstring := Option.some.inj hprint
  have ⟨hread, hend⟩ := strcpy_some hbuf
  generalize stringOf buf = l at hstring hread hend
  subst hstring
  rw [text_length] at hend
  intro k hk
  rcases Nat.lt_or_eq_of_le hk with hlt | rfl
  · rw [hread k (by rw [text_length]; exact hlt), text_get]
  · rw [hend, he.2]

end Printing

/-! ## Contents that tell frames apart -/

/-- One byte for each offset in a page: a NUL where the string ends. -/
def offsetByte (p : Place) (o : ℕ) : Byte := if o = (p.va+p.length)%4096 then 0 else 1

/-- Every page has the same bytes. -/
def alike (p : Place) : Contents := ⟨fun a => offsetByte p (a%4096), fun v => offsetByte p (v%4096)⟩

/-- But frame `g` has another first byte. -/
def except (p : Place) (g : ℕ) : Contents where
  physical := fun a => if a = g*4096 then (if offsetByte p 0 = 0 then 1 else 0) else offsetByte p (a%4096)
  fresh := fun v => offsetByte p (v%4096)

section Apart

variable (x : Caller) (p : Place)

theorem alike_byte (va : ℕ) : userByte x (alike p) va = offsetByte p (va%4096) := by
  rw [userByte]
  cases frameAt x.tables x.pml4Table (va/4096) with
  | none => rfl
  | some f =>
    change offsetByte p ((f*4096+va%4096)%4096) = _
    congr 1
    omega

theorem except_byte {g va : ℕ} (h : frameAt x.tables x.pml4Table (va/4096) ≠ some g) :
    userByte x (except p g) va = offsetByte p (va%4096) := by
  rw [userByte]
  cases hf : frameAt x.tables x.pml4Table (va/4096) with
  | none => rfl
  | some f =>
    have hne : f ≠ g := fun he => h (by rw [hf, he])
    have hother : f*4096+va%4096 ≠ g*4096 := by omega
    change (if f*4096+va%4096 = g*4096 then _ else offsetByte p ((f*4096+va%4096)%4096)) = _
    rw [if_neg hother]
    congr 1
    omega

/-- A process that has these bytes has the string. -/
theorem ends_of_offsets {c : Contents}
    (h : ∀ k ≤ p.length, userByte x c (p.va+k) = offsetByte p ((p.va+k)%4096)) : Ends x c p := by
  have hshort := p.short
  constructor
  · intro k hk
    rw [h k hk.le, offsetByte, if_neg (by omega)]
    decide
  · rw [h p.length le_rfl, offsetByte, if_pos rfl]

end Apart

/-- `sys_print` shows the string of the process, whatever the memory holds, if and only
if its second page, where it has one, has the frame behind that of the first. -/
theorem print_exact (x : Caller) (p : Place) :
    (∀ c, Ends x c p → sysPrint x c p.va = some (text x c p)) ↔ Follows x p := by
  have hshort := p.short
  have hbelow := p.below
  constructor
  · intro h
    have halike := ends_of_offsets x p fun k _ => alike_byte x p (p.va+k)
    have hload := load_of_prints halike (h _ halike)
    cases hf : frameAt x.tables x.pml4Table (p.va/4096) with
    | none =>
      have hfirst := hload 0 (Nat.zero_le _)
      rw [pointer_absent x (by omega) hf, load, if_neg] at hfirst
      · cases hfirst
      · rintro ⟨hle, -⟩
        rw [kernelBase] at hle
        omega
    | some f =>
      rw [pointer_present x (by omega) hf] at hload
      have hfirst := (load_some x (hload 0 (Nat.zero_le _))).1
      refine ⟨f, hf, ?_, fun hcross => ?_⟩
      · rwa [show (f*4096+p.va%4096)/4096 = f by omega] at hfirst
      · have hsecond : f*4096+p.va%4096+(4096-p.va%4096) = (f+1)*4096 := by omega
        have hnext : (p.va+(4096-p.va%4096))%4096 = 0 := by omega
        have hat := hload (4096-p.va%4096) (by omega)
        rw [Nat.add_assoc, hsecond] at hat
        have hdirect := (load_some x hat).1
        rw [Nat.mul_div_cancel _ (by decide)] at hdirect
        refine ⟨?_, hdirect⟩
        by_contra hne
        have hbytes : ∀ k ≤ p.length, userByte x (except p (f+1)) (p.va+k) = offsetByte p ((p.va+k)%4096) := by
          intro k hk
          refine except_byte x p ?_
          by_cases hin : p.va%4096+k < 4096
          · rw [show (p.va+k)/4096 = p.va/4096 by omega, hf]
            exact fun he => absurd (Option.some.inj he) (by omega)
          · rw [show (p.va+k)/4096 = p.va/4096+1 by omega]
            exact hne
        have hexcept := ends_of_offsets x p hbytes
        have hat' := load_of_prints hexcept (h _ hexcept) (4096-p.va%4096) (by omega)
        rw [pointer_present x (by omega) hf, Nat.add_assoc, hsecond, hbytes _ (by omega), hnext] at hat'
        have hread := (load_some x hat').2
        change (if (f+1)*4096 = (f+1)*4096 then (if offsetByte p 0 = 0 then 1 else 0) else _) = _ at hread
        rw [if_pos rfl] at hread
        split at hread
        next hz =>
          rw [hz] at hread
          cases hread
        next hz => exact hz hread.symm
  · exact fun h c he => prints_of_follows h he

/-! ## A string on two frames -/

/-- Tables whose words are small have small frames. -/
theorem low_of_words {s : Memory} (h : ∀ t i, (s.words t i).toNat < 2^47) (pml4Table : ℕ) :
    ∀ n f, frameAt s pml4Table n = some f → f < frameLimit := by
  intro n f hf
  obtain ⟨pte, hpte, rfl⟩ := Option.map_eq_some_iff.mp hf
  have hword : ∃ t i, pte = s.words t i := by
    obtain ⟨pdp, -, hpdp⟩ := Option.bind_eq_some_iff.mp ((find_read s.words pml4Table n).symm.trans hpte)
    obtain ⟨pd, -, hpd⟩ := Option.bind_eq_some_iff.mp ((find_read s.words pdp n).symm.trans hpdp)
    obtain ⟨pt, -, hpt⟩ := Option.bind_eq_some_iff.mp ((find_read s.words pd n).symm.trans hpd)
    have hleaf := (find_last s.words pt n).symm.trans hpt
    rw [leafOf] at hleaf
    split at hleaf
    · exact ⟨pt, _, (Option.some.inj hleaf).symm⟩
    · cases hleaf
  obtain ⟨t, i, rfl⟩ := hword
  have := h t i
  rw [masked_toNat, mapNr_eq, frameOf, pageSize, frameLimit]
  omega

def twoPageWords (t i : ℕ) : Word :=
  if t = 1 ∧ i = 0 then 0x2007
  else if t = 2 ∧ i = 0 then 0x3007
  else if t = 3 ∧ i = 0 then 0x4007
  else if t = 4 ∧ i = 0 then 0x8007
  else if t = 4 ∧ i = 1 then 0xa007
  else 0

/-- The pages 0 and 1 have the frames 8 and 10. -/
def twoPages : Caller where
  tables := ⟨⟨fun _ => 0, fun _ => [], fun _ => 0, fun _ => false, 0, 0⟩, twoPageWords⟩
  pml4Table := 1
  low := low_of_words (fun t i => by
    change (twoPageWords t i).toNat < 2^47
    unfold twoPageWords
    repeat' split
    all_goals decide) 1
  direct := fun _ => true
  buffer := 1
  buffer_ne := by decide

/-- The end of one has "ab", the front of the other "c". -/
def abc : Contents :=
  ⟨fun a => if a = 0x8ffe then chr 'a' else if a = 0x8fff then chr 'b' else if a = 0xa000 then chr 'c' else 0, fun _ => 0⟩

def across : Place := ⟨0xffe, 3, by decide, by decide⟩

/-- The "c" is not printed. -/
theorem end_lost : Ends twoPages abc across ∧ text twoPages abc across = [chr 'a', chr 'b', chr 'c'] ∧
    sysPrint twoPages abc across.va = some [chr 'a', chr 'b'] := by
  have hends : (∀ k < 3, userByte twoPages abc (0xffe+k) ≠ 0) ∧ userByte twoPages abc (0xffe+3) = 0 := by
    decide +kernel
  refine ⟨hends, ?_, ?_⟩
  · decide +kernel
  · decide +kernel

end BabyOS.PrintedStrings
