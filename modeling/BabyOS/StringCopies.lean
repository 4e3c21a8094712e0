import BabyOS.FileSystem

/-!
# Copies of user strings

Every array of the kernel that receives a string of the caller is filled by
`strcpy`, `strncpy` or `strcat`, none of which knows its size. A system call is
taken here as the list of its copies, each with the array it is meant for and
the stores it makes, and the calls whose stores all stay inside are determined.
How far a path is walked depends on the directories, so the answers of the walk
are a part of the state.
-/

set_option autoImplicit false

namespace BabyOS.StringCopies
open BabyOS.ByteWords

open BabyOS.FileSystem (maxPathLen slash dot)

/-- The address and the byte of a store. -/
abbrev Store := ℕ × Byte

/-- What the loads of a copy find, one byte after the other. -/
abbrev Source := ℕ → Byte

def Source.next (src : Source) : Source := fun k => src (k+1)

def text (s : List Byte) : Source := fun k => s.getD k 0

/-- The stores of the first rounds of `strcpy`. -/
def strcpy (dst : ℕ) (src : Source) : ℕ → List Store
  | 0 => []
  | fuel+1 => if src 0 = 0 then [(dst, 0)] else (dst, src 0) :: strcpy (dst+1) src.next fuel

/-- `strncpy`: at most `n` bytes, and the terminator behind them. -/
def strncpy (dst : ℕ) (src : Source) : ℕ → List Store
  | 0 => [(dst, 0)]
  | n+1 => if src 0 = 0 then [(dst, 0)] else (dst, src 0) :: strncpy (dst+1) src.next n

/-- The first rounds of the second loop of `strcat`, which writes no terminator. -/
def strcat (dst : ℕ) (src : Source) : ℕ → List Store
  | 0 => []
  | fuel+1 => if src 0 = 0 then [] else (dst, src 0) :: strcat (dst+1) src.next fuel

def memset (dst n : ℕ) : List Store := (List.range n).map fun k => (dst+k, 0)

/-- A memory after some stores. -/
def write (m : ℕ → Byte) (l : List Store) : ℕ → Byte :=
  l.foldl (fun m st => Function.update m st.1 st.2) m

/-- The stores of a copy and the array they are meant for. -/
structure Copy where
  start : ℕ
  size : ℕ
  stores : List Store

def Copy.Holds (x : Copy) (a : ℕ) : Prop := x.start ≤ a ∧ a < x.start+x.size

def Copy.Inside (x : Copy) : Prop := ∀ st ∈ x.stores, x.Holds st.1

/-! ## The system calls -/

/-- A path of the caller: the bytes before its terminator. -/
structure UserString where
  bytes : List Byte
  nonzero : ∀ b ∈ bytes, b ≠ 0

/-- What a walk finds: whether the inode before its `k`-th name is a directory,
and whether that directory has the name. -/
structure Walk where
  isDir : ℕ → Bool
  found : ℕ → Bool

/-- The arrays of the kernel, the memory behind the direct mapping, the page
tables of the caller, and what the file system answers. -/
structure Kernel where
  processName : ℕ
  pathName : ℕ
  entryName : ℕ
  printBuffer : ℕ
  consoleBuffer : ℕ
  physical : ℕ → Byte
  vaToPa : ℕ → ℕ
  first : Walk
  second : Walk
  /-- The path that is linked to names a directory. -/
  oldIsDir : Bool
  /-- The `k`-th `dir_link` of the call is reached and gets to its copy. -/
  links : ℕ → Bool

def processNameSize : ℕ := 32
def printSize : ℕ := 512
def consoleSize : ℕ := 1024

/-- What is left of the path, and the stores to the name buffer. -/
def skipElem (name : ℕ) (path : List Byte) : Option (List Byte × List Store) :=
  let path := path.dropWhile (· = slash)
  if path = [] then none
  else
    let len := (path.takeWhile (· ≠ slash)).length
    let len := if len ≥ maxPathLen then maxPathLen else len
    some ((path.dropWhile (· ≠ slash)).dropWhile (· = slash),
      memset name maxPathLen ++ strncpy name (text path) len)

/-- The copies of `namei` from its `k`-th name on, and whether it returns an inode. -/
def nameiFrom (name : ℕ) (parent : Bool) (w : Walk) : ℕ → ℕ → List Byte → List Copy × Bool
  | 0, _, _ => ([], false)
  | fuel+1, k, path =>
    match skipElem name path with
    | none => ([], !parent)
    | some (path, stores) =>
      let copy : Copy := ⟨name, maxPathLen, stores⟩
      if w.isDir k then
        if parent && path = [] then ([copy], true)
        else if w.found k then
          let r := nameiFrom name parent w fuel (k+1) path
          (copy :: r.1, r.2)
        else ([copy], false)
      else ([copy], false)

def namei (s : Kernel) (w : Walk) (path : List Byte) (parent : Bool) : List Copy × Bool :=
  nameiFrom s.pathName parent w (path.length+1) 0 path

def names (path : List Byte) : List (List Byte) := (path.splitOn slash).filter (· ≠ [])

/-- The last name of a path as `namei` leaves it in its buffer. -/
def lastName (path : List Byte) : List Byte := ((names path).getLastD []).take maxPathLen

/-- The copy into the new entry of the `k`-th `dir_link`. -/
def dirLink (s : Kernel) (k : ℕ) (name : List Byte) : List Copy :=
  if s.links k then
    [⟨s.entryName, maxPathLen,
      memset s.entryName maxPathLen ++ strncpy s.entryName (text name) maxPathLen⟩]
  else []

/-- `create`; a new directory first gets its two own entries. -/
def create (s : Kernel) (path : List Byte) (directory : Bool) : List Copy :=
  let r := namei s s.first path true
  if r.2 then
    r.1 ++ (if directory then dirLink s 1 [dot] ++ dirLink s 2 [dot, dot] else []) ++
      dirLink s 0 (lastName path)
  else r.1

def doLink (s : Kernel) (old new : List Byte) : List Copy :=
  let r := namei s s.first old false
  if r.2 && !s.oldIsDir then
    let r' := namei s s.second new true
    if r'.2 then r.1 ++ r'.1 ++ dirLink s 0 (lastName new) else r.1 ++ r'.1
  else r.1

/-- `sys_print` reads the text through the direct mapping, from the physical
address of its first byte on. -/
def printed (s : Kernel) (va : ℕ) : Source := fun k => s.physical (s.vaToPa va+k)

/-- The copy to the local buffer, and once that has found the end of the text
the one of `kprintf` to its own. -/
def sysPrint (s : Kernel) (va fuel : ℕ) : List Copy :=
  ⟨s.printBuffer, printSize, strcpy s.printBuffer (printed s va) fuel⟩ ::
    if ∃ k < fuel, printed s va k = 0 then
      [⟨s.consoleBuffer, consoleSize, strcat s.consoleBuffer (printed s va) fuel⟩]
    else []

def exec (s : Kernel) (path : List Byte) : List Copy :=
  ⟨s.processName, processNameSize, strcpy s.processName (text path) (path.length+1)⟩ ::
    (namei s s.first path false).1

/-- The system calls that take a string. -/
inductive Call where
  | print (va : ℕ)
  | exec (path : UserString)
  | open (path : UserString) (create : Bool)
  | mkdir (path : UserString)
  | mknod (path : UserString)
  | link (old new : UserString)
  | unlink (path : UserString)
  | chdir (path : UserString)

/-- The copies of a call; `fuel` bounds the rounds of `print`. -/
def copies (s : Kernel) (fuel : ℕ) : Call → List Copy
  | .print va => sysPrint s va fuel
  | .exec path => exec s path.bytes
  | .open path true => create s path.bytes false
  | .open path false => (namei s s.first path.bytes false).1
  | .mkdir path => create s path.bytes true
  | .mknod path => create s path.bytes false
  | .link old new => doLink s old.bytes new.bytes
  | .unlink path => (namei s s.first path.bytes true).1
  | .chdir path => (namei s s.first path.bytes false).1

/-! ## What fits -/

/-- Every name that the walk reaches is shorter than the name buffer. -/
def Walk.Fits (w : Walk) : ℕ → List (List Byte) → Prop
  | _, [] => True
  | k, name :: rest => name.length < maxPathLen ∧ (w.isDir k ∧ w.found k → w.Fits (k+1) rest)

/-- The walk finds all the names. -/
def Walk.Finds (w : Walk) (n : ℕ) : Prop := ∀ k < n, w.isDir k ∧ w.found k

/-- The strings of a call fit the arrays they are copied to. -/
def Fits (s : Kernel) : Call → Prop
  | .print va => ∃ k < printSize, printed s va k = 0
  | .exec path => path.bytes.length < processNameSize ∧ s.first.Fits 0 (names path.bytes)
  | .open path _ => s.first.Fits 0 (names path.bytes)
  | .mkdir path => s.first.Fits 0 (names path.bytes)
  | .mknod path => s.first.Fits 0 (names path.bytes)
  | .link old new => s.first.Fits 0 (names old.bytes) ∧
      (s.first.Finds (names old.bytes).length ∧ s.oldIsDir = false →
        s.second.Fits 0 (names new.bytes))
  | .unlink path => s.first.Fits 0 (names path.bytes)
  | .chdir path => s.first.Fits 0 (names path.bytes)

/-! ## The copy loops -/

/-- A round of `strcpy` stores while every earlier byte was not the terminator. -/
theorem strcpy_stores (n dst a : ℕ) (src : Source) :
    (∃ b, (a, b) ∈ strcpy dst src n) ↔ ∃ k < n, a = dst+k ∧ ∀ j < k, src j ≠ 0 := by
  induction n generalizing dst src with
  | zero => simp [strcpy]
  | succ n ih =>
    rw [strcpy]
    split
    · rename_i h0
      constructor
      · rintro ⟨b, hb⟩
        have ha := (Prod.mk.inj (List.mem_singleton.mp hb)).1
        exact ⟨0, by omega, ha, fun j hj => absurd hj (by omega)⟩
      · rintro ⟨k, hk, ha, hj⟩
        have hk0 : k = 0 := by
          by_contra h
          exact hj 0 (by omega) h0
        exact ⟨0, by simp [ha, hk0]⟩
    · rename_i h0
      constructor
      · rintro ⟨b, hb⟩
        rcases List.mem_cons.mp hb with h | h
        · exact ⟨0, by omega, (Prod.mk.inj h).1, fun j hj => absurd hj (by omega)⟩
        · have ⟨k, hk, ha, hj⟩ := (ih (dst+1) src.next).mp ⟨b, h⟩
          refine ⟨k+1, by omega, by omega, fun j hj' => ?_⟩
          cases j with
          | zero => exact h0
          | succ j => exact hj j (by omega)
      · rintro ⟨k, hk, ha, hj⟩
        cases k with
        | zero => exact ⟨src 0, by simp [ha]⟩
        | succ k =>
          have ⟨b, hb⟩ := (ih (dst+1) src.next).mpr
            ⟨k, by omega, by omega, fun j hjk => hj (j+1) (by omega)⟩
          exact ⟨b, List.mem_cons_of_mem _ hb⟩

/-- `strncpy` is `strcpy` of a text that ends after `n` bytes. -/
theorem strncpy_eq (dst n : ℕ) (src : Source) :
    strncpy dst src n = strcpy dst (fun k => if k < n then src k else 0) (n+1) := by
  induction n generalizing dst src with
  | zero => simp [strncpy, strcpy]
  | succ n ih =>
    have hn : Source.next (fun k => if k < n+1 then src k else 0) =
        fun k => if k < n then src.next k else 0 := by
      funext k
      simp [Source.next]
    rw [strncpy, strcpy, hn, ih (dst+1) src.next]
    simp

theorem strcat_subset (dst n : ℕ) (src : Source) {st : Store} (h : st ∈ strcat dst src n) :
    st ∈ strcpy dst src n := by
  induction n generalizing dst src with
  | zero => simp [strcat] at h
  | succ n ih =>
    rw [strcat] at h
    rw [strcpy]
    split at h
    · cases h
    · rename_i h0
      rw [if_neg h0]
      rcases List.mem_cons.mp h with h | h
      · rw [h]
        exact List.mem_cons_self
      · exact List.mem_cons_of_mem _ (ih _ _ h)

/-- All rounds of `strcpy` store inside exactly when the text ends inside. -/
theorem strcpy_inside (dst size : ℕ) (src : Source) :
    (∀ n, Copy.Inside ⟨dst, size, strcpy dst src n⟩) ↔ ∃ k < size, src k = 0 := by
  constructor
  · intro h
    by_contra hne
    have ⟨b, hb⟩ := (strcpy_stores (size+1) dst (dst+size) src).mpr
      ⟨size, by omega, rfl, fun j hj h0 => hne ⟨j, hj, h0⟩⟩
    have hlt := (h (size+1) (dst+size, b) hb).2
    exact absurd hlt (Nat.lt_irrefl _)
  · rintro ⟨z, hz, h0⟩ n ⟨a, b⟩ hb
    have ⟨k, _, ha, hj⟩ := (strcpy_stores n dst a src).mp ⟨b, hb⟩
    have hk : k ≤ z := by
      by_contra h
      exact hj z (by omega) h0
    exact ⟨by simp; omega, by simp; omega⟩

/-- So do the rounds up to the terminator. -/
theorem strcpy_inside_done {dst size z : ℕ} {src : Source} (hz : src z = 0) :
    Copy.Inside ⟨dst, size, strcpy dst src (z+1)⟩ ↔ ∃ k < size, src k = 0 := by
  rw [← strcpy_inside dst size src]
  constructor
  · rintro h n ⟨a, b⟩ hb
    have ⟨k, _, ha, hj⟩ := (strcpy_stores n dst a src).mp ⟨b, hb⟩
    have hk : k ≤ z := by
      by_contra h
      exact hj z (by omega) hz
    have ⟨b', hb'⟩ := (strcpy_stores (z+1) dst a src).mpr ⟨k, by omega, ha, hj⟩
    exact h (a, b') hb'
  · exact fun h => h _

theorem strncpy_inside (dst size n : ℕ) (src : Source) :
    Copy.Inside ⟨dst, size, strncpy dst src n⟩ ↔ n < size ∨ ∃ k < size, src k = 0 := by
  rw [strncpy_eq, strcpy_inside_done (by simp)]
  constructor
  · rintro ⟨k, hk, h0⟩
    by_cases hn : k < n
    · exact .inr ⟨k, hk, by simpa [hn] using h0⟩
    · exact .inl (by omega)
  · rintro (h | ⟨k, hk, h0⟩)
    · exact ⟨n, h, by simp⟩
    · exact ⟨k, hk, by simp [h0]⟩

/-- Clearing the array first keeps to it. -/
theorem memset_inside (dst size : ℕ) (l : List Store) :
    Copy.Inside ⟨dst, size, memset dst size ++ l⟩ ↔ Copy.Inside ⟨dst, size, l⟩ := by
  constructor
  · exact fun h st hs => h st (List.mem_append_right _ hs)
  · intro h st hs
    rcases List.mem_append.mp hs with hm | hl
    · have ⟨k, hk, he⟩ := List.mem_map.mp hm
      have hlt := List.mem_range.mp hk
      rw [← he]
      exact ⟨by simp, by simpa using hlt⟩
    · exact h st hl

/-! ## The walk -/

theorem names_slash (path : List Byte) : names (slash :: path) = names path := by
  have hs : (slash :: path).splitOn slash = [[]] ++ path.splitOn slash :=
    List.splitOn_append_cons_self [] path
  simp [names, hs]

/-- Slashes before a name are passed over. -/
theorem names_drop (path : List Byte) : names (path.dropWhile (· = slash)) = names path := by
  induction path with
  | nil => rfl
  | cons b path ih =>
    by_cases hb : b = slash
    · rw [List.dropWhile_cons_of_pos (by simpa using hb), ih, hb, names_slash]
    · rw [List.dropWhile_cons_of_neg (by simpa using hb)]

/-- The first name of a path that begins with one. -/
theorem names_cons {b : Byte} {path : List Byte} (hb : b ≠ slash) :
    names (b :: path) = (b :: path).takeWhile (· ≠ slash) ::
      names ((b :: path).dropWhile (· ≠ slash)) := by
  have hne : (b :: path).takeWhile (· ≠ slash) ≠ [] := by
    simp [hb]
  have hno : slash ∉ (b :: path).takeWhile (· ≠ slash) := by
    intro hx
    simpa using List.mem_takeWhile_imp hx
  have hap := List.takeWhile_append_dropWhile (p := (· ≠ slash)) (l := b :: path)
  cases hd : (b :: path).dropWhile (· ≠ slash) with
  | nil =>
    have hl : (b :: path).splitOn slash = [(b :: path).takeWhile (· ≠ slash)] := by
      conv_lhs => rw [← hap, hd, List.append_nil]
      exact List.splitOn_eq_singleton hno
    have h0 : names [] = [] := rfl
    rw [h0, names, hl]
    exact List.filter_cons_of_pos (by simpa using hne)
  | cons c rest =>
    have hc : c = slash := by
      have h := List.head?_dropWhile_not (· ≠ slash) (b :: path)
      rw [hd] at h
      simpa using h
    have hl : (b :: path).splitOn slash =
        (b :: path).takeWhile (· ≠ slash) :: rest.splitOn slash := by
      conv_lhs => rw [← hap, hd, hc]
      exact List.splitOn_append_cons_self_of_not_mem hno rest
    rw [hc, names_slash, names, hl]
    exact List.filter_cons_of_pos (by simpa using hne)

/-- A string without zeros ends at its length. -/
theorem text_ends {s : List Byte} (hs : ∀ b ∈ s, b ≠ 0) (n : ℕ) :
    (∃ k < n, text s k = 0) ↔ s.length < n := by
  constructor
  · rintro ⟨k, hk, h0⟩
    by_contra h
    have hlt : k < s.length := by omega
    refine hs _ (List.getElem_mem hlt) ?_
    rwa [text, List.getD_eq_getElem _ _ hlt] at h0
  · intro h
    exact ⟨s.length, h, by simp [text]⟩

theorem skipElem_none {name : ℕ} {path : List Byte} (h : skipElem name path = none) :
    names path = [] := by
  rw [skipElem] at h
  split at h
  · rename_i hd
    rw [← names_drop, hd]
    rfl
  · cases h

/-- The stores for a name stay in the buffer when it is shorter than that. -/
theorem skipElem_some {name : ℕ} {path rest : List Byte} {stores : List Store}
    (hs : ∀ b ∈ path, b ≠ 0) (h : skipElem name path = some (rest, stores)) :
    ∃ first, names path = first :: names rest ∧ rest.length < path.length ∧
      (∀ b ∈ rest, b ≠ 0) ∧
      (Copy.Inside ⟨name, maxPathLen, stores⟩ ↔ first.length < maxPathLen) := by
  rw [skipElem] at h
  split at h
  · cases h
  rename_i hd
  have ⟨hr, hst⟩ := Prod.mk.inj (Option.some.inj h)
  have hmem : ∀ b ∈ path.dropWhile (· = slash), b ≠ 0 :=
    fun b hb => hs b ((List.dropWhile_sublist _).mem hb)
  have hlen := (List.dropWhile_sublist (· = slash) (l := path)).length_le
  have hhead := List.head?_dropWhile_not (· = slash) path
  have hnames := names_drop path
  cases hp : path.dropWhile (· = slash) with
  | nil => exact absurd hp hd
  | cons b p =>
    rw [hp] at hr hst hmem hlen hhead hnames
    have hb : b ≠ slash := by simpa using hhead
    refine ⟨(b :: p).takeWhile (· ≠ slash), ?_, ?_, ?_, ?_⟩
    · rw [← hnames, names_cons hb, ← hr, names_drop]
    · rw [← hr]
      have h1 := (List.dropWhile_sublist (· = slash)
        (l := (b :: p).dropWhile (· ≠ slash))).length_le
      have h2 := (List.dropWhile_sublist (· ≠ slash) (l := p)).length_le
      have h3 : (b :: p).dropWhile (· ≠ slash) = p.dropWhile (· ≠ slash) :=
        List.dropWhile_cons_of_pos (by simpa using hb)
      rw [h3] at h1 ⊢
      rw [List.length_cons] at hlen
      omega
    · intro x hx
      rw [← hr] at hx
      exact hmem x ((List.dropWhile_sublist _).mem ((List.dropWhile_sublist _).mem hx))
    · rw [← hst, memset_inside, strncpy_inside, text_ends hmem]
      have hle := (List.takeWhile_sublist (· ≠ slash) (l := b :: p)).length_le
      split <;> omega

theorem inside_cons (x : Copy) (l : List Copy) :
    (∀ y ∈ x :: l, y.Inside) ↔ x.Inside ∧ ∀ y ∈ l, y.Inside := by
  simp

/-- The walk keeps to the name buffer exactly when the names it reaches fit. -/
theorem nameiFrom_inside {name fuel k : ℕ} {parent : Bool} {w : Walk} {path : List Byte}
    (hs : ∀ b ∈ path, b ≠ 0) (hf : path.length < fuel) :
    (∀ x ∈ (nameiFrom name parent w fuel k path).1, x.Inside) ↔ w.Fits k (names path) := by
  induction fuel generalizing k path with
  | zero => omega
  | succ fuel ih =>
    rw [nameiFrom]
    cases hsk : skipElem name path with
    | none =>
      rw [skipElem_none hsk]
      simp [Walk.Fits]
    | some r =>
      have ⟨first, hn, hl, hr, hin⟩ := skipElem_some hs hsk
      rw [hn, Walk.Fits]
      have hone : (∀ x ∈ [(⟨name, maxPathLen, r.2⟩ : Copy)], x.Inside) ↔
          first.length < maxPathLen := by
        simpa using hin
      by_cases hd : w.isDir k
      · by_cases hp : (parent && decide (r.1 = [])) = true
        · have hnil : names r.1 = [] := by
            rw [of_decide_eq_true (Bool.and_eq_true_iff.mp hp).2]
            rfl
          simp only [hd, hp, if_true, hone, hnil, Walk.Fits]
          simp
        · by_cases hfo : w.found k
          · simp only [hd, hp, hfo, if_true]
            rw [if_neg (by simp), inside_cons, hin, ih hr (by omega)]
            simp
          · simp only [hd, hp, hfo, if_true]
            rw [if_neg (by simp), if_neg (by simp), hone]
            simp
      · simp only [hd]
        rw [if_neg (by simp), hone]
        simp

/-- Without the last step left out, the walk succeeds when it finds all names. -/
theorem nameiFrom_finds {name fuel k : ℕ} {w : Walk} {path : List Byte}
    (hs : ∀ b ∈ path, b ≠ 0) (hf : path.length < fuel) :
    (nameiFrom name false w fuel k path).2 = true ↔
      ∀ j < (names path).length, w.isDir (k+j) ∧ w.found (k+j) := by
  induction fuel generalizing k path with
  | zero => omega
  | succ fuel ih =>
    rw [nameiFrom]
    cases hsk : skipElem name path with
    | none => simp [skipElem_none hsk]
    | some r =>
      have ⟨first, hn, hl, hr, _⟩ := skipElem_some hs hsk
      rw [hn, List.length_cons]
      have hsplit : (∀ j < (names r.1).length+1, w.isDir (k+j) ∧ w.found (k+j)) ↔
          (w.isDir k ∧ w.found k) ∧
            ∀ j < (names r.1).length, w.isDir (k+1+j) ∧ w.found (k+1+j) := by
        constructor
        · intro h
          refine ⟨h 0 (by omega), fun j hj => ?_⟩
          rw [Nat.add_assoc, Nat.add_comm 1 j]
          exact h (j+1) (by omega)
        · rintro ⟨h0, h⟩ j hj
          cases j with
          | zero => exact h0
          | succ j =>
            rw [show k+(j+1) = k+1+j by omega]
            exact h j (by omega)
      rw [hsplit]
      by_cases hd : w.isDir k <;> by_cases hfo : w.found k
      · simpa [hd, hfo] using ih hr (k := k+1) (by omega)
      all_goals simp [hd, hfo]

/-- A walk that got to the last name has reached them all. -/
theorem nameiFrom_last {name fuel k : ℕ} {w : Walk} {path : List Byte}
    (hs : ∀ b ∈ path, b ≠ 0) (hok : (nameiFrom name true w fuel k path).2 = true)
    (hw : w.Fits k (names path)) : ∀ x ∈ names path, x.length < maxPathLen := by
  induction fuel generalizing k path with
  | zero => cases hok
  | succ fuel ih =>
    rw [nameiFrom] at hok
    cases hsk : skipElem name path with
    | none =>
      rw [hsk] at hok
      cases hok
    | some r =>
      have ⟨first, hn, _, hr, _⟩ := skipElem_some hs hsk
      rw [hsk] at hok
      rw [hn] at hw ⊢
      have hd : w.isDir k = true := by
        by_contra hd
        simp [hd] at hok
      intro x hx
      rcases List.mem_cons.mp hx with hx | hx
      · rw [hx]
        exact hw.1
      by_cases he : r.1 = []
      · rw [he] at hx
        cases hx
      · have hfo : w.found k = true := by
          by_contra hfo
          simp [hd, he, hfo] at hok
        exact ih hr (by simpa [hd, he, hfo] using hok) (hw.2 ⟨hd, hfo⟩) x hx

/-! ## The calls -/

theorem dirLink_inside (s : Kernel) (k : ℕ) {name : List Byte} (h : name.length < maxPathLen) :
    ∀ x ∈ dirLink s k name, x.Inside := by
  intro x hx
  rw [dirLink] at hx
  split at hx
  · rw [List.mem_singleton.mp hx, memset_inside, strncpy_inside]
    exact .inr ⟨name.length, h, by simp [text]⟩
  · cases hx

theorem lastName_short {path : List Byte} (h : ∀ x ∈ names path, x.length < maxPathLen) :
    (lastName path).length < maxPathLen := by
  have hl : ((names path).getLastD []).length < maxPathLen := by
    rw [List.getLastD_eq_getLast?]
    cases he : (names path).getLast? with
    | none => decide
    | some x => exact h x (List.mem_of_getLast? he)
  rw [lastName, List.length_take]
  omega

theorem namei_inside (s : Kernel) (w : Walk) (path : UserString) (parent : Bool) :
    (∀ x ∈ (namei s w path.bytes parent).1, x.Inside) ↔ w.Fits 0 (names path.bytes) :=
  nameiFrom_inside path.nonzero (Nat.lt_succ_self _)

/-- The copies behind a walk that fits add nothing to the condition. -/
theorem append_inside {l l' : List Copy} {P : Prop} (h : (∀ x ∈ l, x.Inside) ↔ P)
    (h' : P → ∀ x ∈ l', x.Inside) : (∀ x ∈ l ++ l', x.Inside) ↔ P := by
  constructor
  · exact fun hi => h.mp fun x hx => hi x (List.mem_append_left _ hx)
  · intro hp x hx
    rcases List.mem_append.mp hx with hx | hx
    · exact h.mpr hp x hx
    · exact h' hp x hx

theorem create_inside (s : Kernel) (path : UserString) (directory : Bool) :
    (∀ x ∈ create s path.bytes directory, x.Inside) ↔ s.first.Fits 0 (names path.bytes) := by
  rw [create]
  have hw := namei_inside s s.first path true
  split
  · rename_i hok
    refine append_inside (append_inside hw fun _ => ?_) fun hfit => ?_
    · split
      · intro x hx
        rcases List.mem_append.mp hx with hx | hx
        · exact dirLink_inside s 1 (by decide) x hx
        · exact dirLink_inside s 2 (by decide) x hx
      · simp
    · exact dirLink_inside s 0 (lastName_short (nameiFrom_last path.nonzero hok hfit))
  · exact hw

theorem doLink_inside (s : Kernel) (old new : UserString) :
    (∀ x ∈ doLink s old.bytes new.bytes, x.Inside) ↔ Fits s (.link old new) := by
  have hw := namei_inside s s.first old false
  have hw' := namei_inside s s.second new true
  have hok : (namei s s.first old.bytes false).2 = true ↔
      s.first.Finds (names old.bytes).length := by
    have h : (nameiFrom s.pathName false s.first (old.bytes.length+1) 0 old.bytes).2 = true ↔
        ∀ j < (names old.bytes).length, s.first.isDir (0+j) ∧ s.first.found (0+j) :=
      nameiFrom_finds old.nonzero (Nat.lt_succ_self _)
    simpa [Walk.Finds, namei] using h
  rw [doLink, Fits, ← hok]
  by_cases h : (namei s s.first old.bytes false).2 = true ∧ s.oldIsDir = false
  · have hboth : (∀ x ∈ (namei s s.first old.bytes false).1 ++
          (namei s s.second new.bytes true).1, x.Inside) ↔
        s.first.Fits 0 (names old.bytes) ∧ s.second.Fits 0 (names new.bytes) := by
      rw [← hw, ← hw']
      simp only [List.mem_append]
      exact ⟨fun hx => ⟨fun x h => hx x (.inl h), fun x h => hx x (.inr h)⟩,
        fun hx x h => h.elim (hx.1 x) (hx.2 x)⟩
    simp only [h.1, h.2, Bool.not_false, Bool.and_true, if_true, true_and, true_imp_iff]
    split
    · rename_i hnew
      exact append_inside hboth fun hfit =>
        dirLink_inside s 0 (lastName_short (nameiFrom_last new.nonzero hnew hfit.2))
    · exact hboth
  · have hstop : ((namei s s.first old.bytes false).2 && !s.oldIsDir) = false := by
      cases h1 : (namei s s.first old.bytes false).2 <;> cases h2 : s.oldIsDir <;> simp_all
    simp only [hstop]
    rw [if_neg (by simp), hw]
    exact ⟨fun hf => ⟨hf, fun hc => absurd hc h⟩, fun hf => hf.1⟩

theorem sysPrint_inside (s : Kernel) (va : ℕ) :
    (∀ fuel, ∀ x ∈ sysPrint s va fuel, x.Inside) ↔ Fits s (.print va) := by
  have hone := strcpy_inside s.printBuffer printSize (printed s va)
  constructor
  · exact fun h => hone.mp fun n => h n _ List.mem_cons_self
  · intro h fuel x hx
    rcases List.mem_cons.mp hx with hx | hx
    · rw [hx]
      exact hone.mpr h fuel
    · split at hx
      · have ⟨k, hk, h0⟩ := h
        have hin := (strcpy_inside s.consoleBuffer consoleSize (printed s va)).mpr
          ⟨k, hk.trans (by decide), h0⟩ fuel
        rw [List.mem_singleton.mp hx]
        exact fun st hst => hin st (strcat_subset _ _ _ hst)
      · cases hx

theorem exec_inside (s : Kernel) (path : UserString) :
    (∀ x ∈ exec s path.bytes, x.Inside) ↔ Fits s (.exec path) := by
  have hend : text path.bytes path.bytes.length = 0 := by simp [text]
  rw [exec, inside_cons, strcpy_inside_done hend, text_ends path.nonzero, namei_inside]
  rfl

/-- A memory keeps every byte that no store is to. -/
theorem write_outside {l : List Store} {a : ℕ} (m : ℕ → Byte) (h : ∀ st ∈ l, st.1 ≠ a) :
    write m l a = m a := by
  induction l generalizing m with
  | nil => rfl
  | cons st l ih =>
    rw [write, List.foldl_cons, ← write, ih _ fun st' h' => h st' (List.mem_cons_of_mem _ h')]
    exact Function.update_of_ne (h st List.mem_cons_self).symm _ _

/-- A system call keeps all its copies inside their arrays exactly when its
strings fit; it then changes no byte outside them. -/
theorem string_copies (s : Kernel) (c : Call) :
    ((∀ fuel, ∀ x ∈ copies s fuel c, x.Inside) ↔ Fits s c) ∧
      (Fits s c → ∀ fuel m a, (∀ x ∈ copies s fuel c, ¬ x.Holds a) →
        write m ((copies s fuel c).flatMap Copy.stores) a = m a) := by
  have hiff : (∀ fuel, ∀ x ∈ copies s fuel c, x.Inside) ↔ Fits s c := by
    cases c with
    | print va => exact sysPrint_inside s va
    | exec path => exact (forall_const ℕ).trans (exec_inside s path)
    | «open» path new =>
      cases new with
      | true => exact (forall_const ℕ).trans (create_inside s path false)
      | false => exact (forall_const ℕ).trans (namei_inside s s.first path false)
    | mkdir path => exact (forall_const ℕ).trans (create_inside s path true)
    | mknod path => exact (forall_const ℕ).trans (create_inside s path false)
    | link old new => exact (forall_const ℕ).trans (doLink_inside s old new)
    | unlink path => exact (forall_const ℕ).trans (namei_inside s s.first path true)
    | chdir path => exact (forall_const ℕ).trans (namei_inside s s.first path false)
  refine ⟨hiff, fun hfit fuel m a ha => write_outside m fun st hst he => ?_⟩
  have ⟨x, hx, hin⟩ := List.mem_flatMap.mp hst
  exact ha x hx (he ▸ hiff.mpr hfit fuel x hx st hin)

/-- A name of 14 letters. -/
def letters : UserString := ⟨(List.range 14).map fun k => 0x61+BitVec.ofNat 8 k, by decide⟩

/-- A kernel whose root directory is empty. -/
def emptyRoot : Kernel where
  processName := 0
  pathName := 32
  entryName := 48
  printBuffer := 64
  consoleBuffer := 576
  physical := fun _ => 0
  vaToPa := id
  first := ⟨fun _ => true, fun _ => false⟩
  second := ⟨fun _ => true, fun _ => false⟩
  oldIsDir := false
  links := fun _ => true

/-- `mkdir("abcdefghijklmn")`: the terminator of the name is stored behind the
14 bytes of the buffer. -/
theorem name_overrun : ¬ ∀ fuel, ∀ x ∈ copies emptyRoot fuel (.mkdir letters), x.Inside := by
  intro h
  have hfit := (create_inside emptyRoot letters true).mp (h 0)
  have hn : names letters.bytes = [letters.bytes] := by decide
  rw [hn] at hfit
  exact absurd hfit.1 (by decide)

/-! ## The name that the walk uses -/

theorem write_append (m : ℕ → Byte) (l l' : List Store) :
    write m (l++l') = write (write m l) l' := List.foldl_append

/-- What a finished `strcpy` leaves behind is the text with its end. -/
theorem write_strcpy {z : ℕ} {src : Source} (hz : src z = 0) (hj : ∀ j < z, src j ≠ 0)
    (m : ℕ → Byte) (dst : ℕ) : ∀ k ≤ z, write m (strcpy dst src (z+1)) (dst+k) = src k := by
  induction z generalizing m dst src with
  | zero =>
    intro k hk
    have hk0 : k = 0 := by omega
    simp [strcpy, hz, hk0, write]
  | succ z ih =>
    intro k hk
    rw [strcpy, if_neg (hj 0 (by omega)), write, List.foldl_cons, ← write]
    cases k with
    | zero =>
      rw [write_outside]
      · simp
      · intro st hst he
        have ⟨k, _, ha, _⟩ := (strcpy_stores _ _ _ _).mp ⟨st.2, hst⟩
        omega
    | succ k =>
      rw [show dst+(k+1) = dst+1+k by omega]
      exact @ih src.next hz (fun j hjz => hj (j+1) (by omega)) _ _ k (by omega)
/-- The name buffer then reads as the name that the file system goes on with. -/
theorem skipElem_reads {name : ℕ} {path rest : List Byte} {stores : List Store}
    (hs : ∀ b ∈ path, b ≠ 0) (h : skipElem name path = some (rest, stores)) (m : ℕ → Byte) :
    ∃ x, FileSystem.skipElem path = some (rest, x) ∧
      ∀ k ≤ x.length, write m stores (name+k) = text x k := by
  rw [skipElem] at h
  split at h
  · cases h
  rename_i hd
  have ⟨hr, hst⟩ := Prod.mk.inj (Option.some.inj h)
  have hmem : ∀ b ∈ path.dropWhile (· = slash), b ≠ 0 :=
    fun b hb => hs b ((List.dropWhile_sublist _).mem hb)
  refine ⟨((path.dropWhile (· = slash)).takeWhile (· ≠ slash)).take maxPathLen, ?_, ?_⟩
  · rw [FileSystem.skipElem, if_neg hd, hr]
  generalize path.dropWhile (· = slash) = p at hst hmem
  have hpre : (p.takeWhile (· ≠ slash)).take maxPathLen <+: p :=
    (List.take_prefix _ _).trans (List.takeWhile_prefix _)
  generalize hx : (p.takeWhile (· ≠ slash)).take maxPathLen = x at hpre
  have hlen : (if (p.takeWhile (· ≠ slash)).length ≥ maxPathLen then maxPathLen
      else (p.takeWhile (· ≠ slash)).length) = x.length := by
    rw [← hx, List.length_take]
    split <;> omega
  have hget : ∀ k < x.length, text p k = text x k := by
    intro k hk
    rw [text, text, List.getD_eq_getElem _ _ hk, List.getD_eq_getElem _ _ (hk.trans_le hpre.length_le)]
    exact (hpre.getElem hk).symm
  have hsrc : ∀ k ≤ x.length, (if k < x.length then text p k else 0) = text x k := by
    intro k hk
    split
    · rename_i hlt
      exact hget k hlt
    · simp [text, show x.length ≤ k by omega]
  intro k hk
  rw [← hst, hlen, write_append, strncpy_eq, write_strcpy (by simp) ?_ _ _ k hk]
  · exact hsrc k hk
  · intro j hj
    have hjp := hj.trans_le hpre.length_le
    rw [if_pos hj, text, List.getD_eq_getElem _ _ hjp]
    exact hmem _ (List.getElem_mem hjp)

end BabyOS.StringCopies
