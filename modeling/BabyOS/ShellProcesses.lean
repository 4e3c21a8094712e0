import BabyOS.ShellCommands

/-!
# Processes of a command line

`execute` forks a process for each command of a tree. A child goes on with the code of its
parent, so that what is left to do for a process is the rest of its command and, behind it,
the rest of the code that it was forked in. The results of the calls are open. Calls whose
result is not looked at (`close`, `dup`, `printf`) are left out, and of a new image only its
end is known.
-/

set_option autoImplicit false

namespace BabyOS.ShellProcesses
open BabyOS.ShellCommands

/-- The way to a command of the tree. The shell is at `[]` and its tree at `[true]`; of a
pipe or a list the left command is at `false` and the right one at `true`. -/
abbrev Place := List Bool

def root : Place := [true]

inductive Call
  | openFile (file : RedirectFile)
  | pipe
  | fork (d : Place)
  | wait (pid : ℤ)
  | exec (cmd : ExecCommand)

/-- What is left to do for a process, with the place whose code a call belongs to. `loop` is
`shell_t::run`, and `fault` a call through a null pointer. -/
inductive Code
  | call (c : Place) (call : Call) (next : ℤ → Code)
  | exit (c : Place)
  | loop
  | fault

/-! ## Commands -/

/-- The file of one side is opened, if there is one. -/
def redirect (file : Option RedirectFile) (c : Place) (failed next : Code) : Code :=
  match file with
  | none => next
  | some f => .call c (.openFile f) fun fd => if fd < 0 then failed else next

/-- `exec_command_t::execute`; `back` is what its caller does next. -/
def executeExec (cmd : ExecCommand) (c : Place) (back : Code) : Code :=
  redirect cmd.input c back (redirect cmd.output c back (.call c (.exec cmd) fun _ => back))

/-- The end of `pipe_command_t::execute`. -/
def pipeWaits (c : Place) (pid1 pid2 : ℤ) : Code :=
  .call c (.wait pid1) fun _ => .call c (.wait pid2) fun _ => .exit c

def isNull : Command → Bool
  | .null => true
  | _ => false

def execute : Command → Place → Code → Code
  | .null, _, _ => .fault
  | .exec cmd, c, back => executeExec cmd c back
  | .pipe left right, c, _ =>
    .call c .pipe fun r =>
      if r < 0 then .exit c
      else .call c (.fork (c++[false])) fun pid1 =>
        let second := .call c (.fork (c++[true])) fun pid2 =>
          if pid2 = 0 then execute right (c++[true]) (pipeWaits c pid1 pid2) else pipeWaits c pid1 pid2
        if pid1 = 0 then execute left (c++[false]) second else second
  | .list left right, c, _ =>
    let last : ℤ → Code := fun pid => .call c (.wait pid) fun _ => .exit c
    let second : Code :=
      if isNull right then .exit c
      else .call c (.fork (c++[true])) fun pid =>
        if pid = 0 then execute right (c++[true]) (last pid) else last pid
    if isNull left then second
    else .call c (.fork (c++[false])) fun pid =>
      let after := .call c (.wait pid) fun _ => second
      if pid = 0 then execute left (c++[false]) after else after

/-- `shell_t::process`. -/
def process (tree : Command) : Code :=
  .call [] (.fork root) fun pid =>
    let after := .call [] (.wait pid) fun _ => .loop
    if pid = 0 then execute tree root after else after

/-! ## Processes -/

inductive Life
  | runs (code : Code)
  | image
  | zombie

/-- `made` is the command that a process was forked for. -/
structure Process where
  made : Place
  parent : Option ℤ
  life : Life

/-- The processes by their numbers, the places that processes have been made for, and for
each image that was started the place of its process and the place of the call. -/
structure State where
  procs : ℤ → Option Process
  forked : List Place
  execs : List (Place × Place)

namespace State

def put (s : State) (p : ℤ) (x : Process) : State := { s with procs := Function.update s.procs p (some x) }

/-- A process with its code, which begins with a call. -/
def At (s : State) (p : ℤ) (x : Process) (c : Place) (call : Call) (next : ℤ → Code) : Prop :=
  s.procs p = some x ∧ x.life = .runs (.call c call next)

def go (s : State) (p : ℤ) (x : Process) (code : Code) : State := s.put p { x with life := .runs code }

/-- The new process has the number `n`. -/
def fork (s : State) (p n : ℤ) (d : Place) (code : Code) : State :=
  { s.put n ⟨d, some p, .runs code⟩ with forked := d :: s.forked }

def exec (s : State) (p : ℤ) (x : Process) (c : Place) : State :=
  { s.put p { x with life := .image } with execs := (x.made, c) :: s.execs }

/-- A process ends, and its children get another parent. -/
def leave (s : State) (p : ℤ) (x : Process) : State :=
  { s with
    procs := fun q =>
      if q = p then some { x with life := .zombie }
      else (s.procs q).map fun y => if y.parent = some p then { y with parent := none } else y }

def release (s : State) (q : ℤ) : State := { s with procs := Function.update s.procs q none }

/-- The children that `wait_children` looks for. -/
def Waited (s : State) (p n q : ℤ) (y : Process) : Prop :=
  s.procs q = some y ∧ y.parent = some p ∧ (n = -1 ∨ n = q)

end State

inductive Action
  | opened (p r : ℤ)
  | piped (p r : ℤ)
  | forked (p n : ℤ)
  | forkFailed (p : ℤ)
  | reaped (p q : ℤ)
  | resumed (p : ℤ)
  | execed (p : ℤ)
  | execFailed (p r : ℤ)
  | ended (p : ℤ)

/-- A process that is over: by `exit`, by a fault, or with its image. -/
def Ends : Life → Prop
  | .runs (.exit _) => True
  | .runs .fault => True
  | .image => True
  | _ => False

inductive Step : State → Action → State → Prop
  | opened {s : State} {p : ℤ} {x : Process} {c : Place} {f : RedirectFile} {next : ℤ → Code} (r : ℤ) :
      s.At p x c (.openFile f) next → Step s (.opened p r) (s.go p x (next r))
  | piped {s : State} {p : ℤ} {x : Process} {c : Place} {next : ℤ → Code} (r : ℤ) :
      s.At p x c .pipe next → Step s (.piped p r) (s.go p x (next r))
  | forked {s : State} {p n : ℤ} {x : Process} {c d : Place} {next : ℤ → Code} :
      s.At p x c (.fork d) next → 0 < n → s.procs n = none →
      Step s (.forked p n) ((s.go p x (next n)).fork p n d (next 0))
  | forkFailed {s : State} {p : ℤ} {x : Process} {c d : Place} {next : ℤ → Code} :
      s.At p x c (.fork d) next → Step s (.forkFailed p) (s.go p x (next (-1)))
  | reaped {s : State} {p q n : ℤ} {x y : Process} {c : Place} {next : ℤ → Code} :
      s.At p x c (.wait n) next → s.Waited p n q y → y.life = .zombie →
      Step s (.reaped p q) ((s.release q).go p x (next 0))
  | resumed {s : State} {p n : ℤ} {x : Process} {c : Place} {next : ℤ → Code} :
      s.At p x c (.wait n) next → (∀ q y, ¬ s.Waited p n q y) → Step s (.resumed p) (s.go p x (next 0))
  | execed {s : State} {p : ℤ} {x : Process} {c : Place} {cmd : ExecCommand} {next : ℤ → Code} :
      s.At p x c (.exec cmd) next → Step s (.execed p) (s.exec p x c)
  | execFailed {s : State} {p : ℤ} {x : Process} {c : Place} {cmd : ExecCommand} {next : ℤ → Code} (r : ℤ) :
      s.At p x c (.exec cmd) next → Step s (.execFailed p r) (s.go p x (next r))
  | ended {s : State} {p : ℤ} {x : Process} :
      s.procs p = some x → Ends x.life → Step s (.ended p) (s.leave p x)

/-- The shell has read a line. -/
def start (shell : ℤ) (tree : Command) : State where
  procs := Function.update (fun _ => none) shell (some ⟨[], none, .runs (process tree)⟩)
  forked := [[]]
  execs := []

/-- The states that have been left, with the actions, and the present one. -/
inductive Run (shell : ℤ) (tree : Command) : List (State × Action) → State → Prop
  | start : Run shell tree [] (start shell tree)
  | step {h : List (State × Action)} {s s' : State} {a : Action} :
      Run shell tree h s → Step s a s' → Run shell tree ((s, a) :: h) s'

/-! ## What is to hold -/

def Code.OwnedBy (c : Place) : Code → Prop
  | .call o _ _ => o = c
  | .exit o => o = c
  | .loop => c = []
  | .fault => True

/-- No command is started twice, or by another process than its own; no process has come to
code of another place; and when nothing is left to happen, the processes of the line are over. -/
structure Lawful (s : State) : Prop where
  once : (s.execs.map Prod.snd).Nodup
  own : ∀ e ∈ s.execs, e.1 = e.2
  keeps : ∀ p x code, s.procs p = some x → x.life = .runs code → code.OwnedBy x.made
  finished : (∀ a s', ¬ Step s a s') → ∀ p x, s.procs p = some x → x.made ≠ [] → x.life = .zombie

/-- A bound for the steps of a command and of the commands below it. -/
def calls : Command → ℕ
  | .null => 1
  | .exec _ => 4
  | .pipe left right => 6+calls left+calls right
  | .list left right => 5+calls left+calls right

/-- All states are lawful, and the run comes to an end. -/
def Orderly (tree : Command) (h : List (State × Action)) (s : State) : Prop :=
  (∀ x ∈ h, Lawful x.1) ∧ Lawful s ∧ h.length ≤ calls tree+2

/-- A command cannot be started. -/
def Action.Fails : Action → Prop
  | .opened _ r => r < 0
  | .execFailed _ _ => True
  | _ => False

def Clean (h : List (State × Action)) : Prop := ∀ x ∈ h, ¬ x.2.Fails

/-! ## Code that keeps to its place -/

/-- Code of the place `c` that forks at most for the directions `u`, each once, and makes at
most `n` steps with all its children. Only where a command cannot be started does it go on
with code of another place. -/
inductive Own : Place → List Bool → ℕ → Code → Prop
  | loop {u : List Bool} {n : ℕ} : Own [] u n .loop
  | fault {c : Place} {u : List Bool} {n : ℕ} : Own c u (n+1) .fault
  | exit {c : Place} {u : List Bool} {n : ℕ} : Own c u (n+1) (.exit c)
  | openFile {c : Place} {u : List Bool} {n : ℕ} {f : RedirectFile} {next : ℤ → Code} :
      (∀ r, 0 ≤ r → Own c u n (next r)) → (∀ r, r < 0 → ¬ (next r).OwnedBy c) →
      Own c u (n+1) (.call c (.openFile f) next)
  | pipe {c : Place} {u : List Bool} {n : ℕ} {next : ℤ → Code} :
      (∀ r, Own c u n (next r)) → Own c u (n+1) (.call c .pipe next)
  | fork {c : Place} {b : Bool} {u u' : List Bool} {n m : ℕ} {next : ℤ → Code} :
      b ∉ u → Own (c++[b]) u' m (next 0) → (∀ pid, pid ≠ 0 → Own c u n (next pid)) →
      Own c (b :: u) (n+m+1) (.call c (.fork (c++[b])) next)
  | wait {c : Place} {u : List Bool} {n : ℕ} {pid : ℤ} {next : ℤ → Code} :
      (∀ r, Own c u n (next r)) → Own c u (n+1) (.call c (.wait pid) next)
  | exec {c : Place} {u : List Bool} {n : ℕ} {cmd : ExecCommand} {next : ℤ → Code} :
      (∀ r, ¬ (next r).OwnedBy c) → Own c u (n+2) (.call c (.exec cmd) next)

section Own

variable {c : Place} {u : List Bool} {n : ℕ} {code back : Code}

theorem Own.owned (h : Own c u n code) : code.OwnedBy c := by
  cases h with
  | loop => rfl
  | fault => trivial
  | exit => rfl
  | openFile h1 h2 => rfl
  | pipe h1 => rfl
  | fork h1 h2 h3 => rfl
  | wait h1 => rfl
  | exec h1 => rfl

variable {o d : Place} {next : ℤ → Code}

theorem Own.of_openFile {f : RedirectFile} (h : Own c u n (.call o (.openFile f) next)) :
    (∃ m, m+1 = n ∧ ∀ r, 0 ≤ r → Own c u m (next r)) ∧ ∀ r, r < 0 → ¬ (next r).OwnedBy c := by
  cases h with
  | openFile h1 h2 => exact ⟨⟨_, rfl, h1⟩, h2⟩

theorem Own.of_pipe (h : Own c u n (.call o .pipe next)) : ∃ m, m+1 = n ∧ ∀ r, Own c u m (next r) := by
  cases h with
  | pipe h1 => exact ⟨_, rfl, h1⟩

theorem Own.of_fork (h : Own c u n (.call o (.fork d) next)) :
    ∃ b v v' m k, d = c++[b] ∧ u = b :: v ∧ m+k+1 = n ∧ b ∉ v ∧ Own d v' k (next 0) ∧
      ∀ pid, pid ≠ 0 → Own c v m (next pid) := by
  cases h with
  | fork hb h0 h1 => exact ⟨_, _, _, _, _, rfl, rfl, rfl, hb, h0, h1⟩

theorem Own.of_wait {pid : ℤ} (h : Own c u n (.call o (.wait pid) next)) : ∃ m, m+1 = n ∧ ∀ r, Own c u m (next r) := by
  cases h with
  | wait h1 => exact ⟨_, rfl, h1⟩

theorem Own.of_exec {cmd : ExecCommand} (h : Own c u n (.call o (.exec cmd) next)) :
    c = o ∧ 2 ≤ n ∧ ∀ r, ¬ (next r).OwnedBy c := by
  cases h with
  | exec h1 => exact ⟨rfl, by omega, h1⟩

theorem Own.of_ends (h : Own c u n code) (hends : Ends (.runs code)) : 1 ≤ n := by
  cases h with
  | fault => exact Nat.le_add_left 1 _
  | exit => exact Nat.le_add_left 1 _
  | _ => exact hends.elim

/-- Code of a place is not code of a place below it. -/
theorem below_ne (c : Place) (b : Bool) : c ≠ c++[b] := by
  intro h
  have hlen := congrArg List.length h
  rw [List.length_append, List.length_singleton] at hlen
  omega

theorem Own.mono {m : ℕ} (h : Own c u n code) (hle : n ≤ m) : Own c u m code := by
  induction h generalizing m with
  | loop => exact .loop
  | fault =>
    obtain ⟨k, rfl⟩ : ∃ k, m = k+1 := ⟨m-1, by omega⟩
    exact .fault
  | exit =>
    obtain ⟨k, rfl⟩ : ∃ k, m = k+1 := ⟨m-1, by omega⟩
    exact .exit
  | openFile h1 h2 ih =>
    obtain ⟨k, rfl⟩ : ∃ k, m = k+1 := ⟨m-1, by omega⟩
    exact .openFile (fun r hr => ih r hr (by omega)) h2
  | pipe h1 ih =>
    obtain ⟨k, rfl⟩ : ∃ k, m = k+1 := ⟨m-1, by omega⟩
    exact .pipe fun r => ih r (by omega)
  | @fork c b u u' n l next hb h0 h1 ih0 ih =>
    obtain ⟨k, rfl⟩ : ∃ k, m = k+l+1 := ⟨m-l-1, by omega⟩
    exact .fork hb h0 fun pid hpid => ih pid hpid (by omega)
  | wait h1 ih =>
    obtain ⟨k, rfl⟩ : ∃ k, m = k+1 := ⟨m-1, by omega⟩
    exact .wait fun r => ih r (by omega)
  | exec h1 =>
    obtain ⟨k, rfl⟩ : ∃ k, m = k+2 := ⟨m-2, by omega⟩
    exact .exec h1

theorem own_redirect {file : Option RedirectFile} {next : Code} (hback : ¬ back.OwnedBy c)
    (hnext : Own c u n next) : Own c u (n+1) (redirect file c back next) := by
  cases file with
  | none => exact hnext.mono (Nat.le_succ n)
  | some f =>
    refine .openFile (fun r hr => ?_) (fun r hr => ?_)
    · rw [if_neg (not_lt.mpr hr)]
      exact hnext
    · rw [if_pos hr]
      exact hback

theorem own_executeExec {cmd : ExecCommand} (hback : ¬ back.OwnedBy c) : Own c [] 4 (executeExec cmd c back) := by
  have hexec : Own c [] 2 (.call c (.exec cmd) fun _ => back) := .exec fun _ => hback
  exact own_redirect hback (own_redirect hback hexec)

theorem own_pipeWaits (c : Place) (pid1 pid2 : ℤ) : Own c [] 3 (pipeWaits c pid1 pid2) :=
  .wait fun _ => .wait fun _ => .exit

/-- The child and its parent go on with the same code, each in its branch. -/
theorem own_fork {b : Bool} {m : ℕ} {child rest : ℤ → Code} (hb : b ∉ u)
    (hchild : ∃ u', Own (c++[b]) u' m (child 0)) (hrest : ∀ pid, Own c u n (rest pid)) :
    Own c (b :: u) (n+m+1) (.call c (.fork (c++[b])) fun pid => if pid = 0 then child pid else rest pid) := by
  obtain ⟨u', hchild⟩ := hchild
  have hzero : Own (c++[b]) u' m (if (0 : ℤ) = 0 then child 0 else rest 0) := by
    rw [if_pos rfl]
    exact hchild
  refine .fork hb hzero fun pid hpid => ?_
  rw [if_neg hpid]
  exact hrest pid

/-- The code of a command keeps to its place. -/
theorem own_execute (tree : Command) (hback : ¬ back.OwnedBy c) : ∃ u, Own c u (calls tree) (execute tree c back) := by
  induction tree generalizing c back with
  | null => exact ⟨[], .fault⟩
  | exec cmd => exact ⟨[], own_executeExec hback⟩
  | pipe left right ihl ihr =>
    refine ⟨[false, true], ?_⟩
    have hright : ∀ pid1, Own c [true] (3+calls right+1) (.call c (.fork (c++[true])) fun pid2 =>
        if pid2 = 0 then execute right (c++[true]) (pipeWaits c pid1 pid2) else pipeWaits c pid1 pid2) := by
      intro pid1
      exact own_fork List.not_mem_nil (ihr (below_ne c true)) (own_pipeWaits c pid1)
    have hsteps : 3+calls right+1+calls left+1+1 ≤ calls (.pipe left right) := by
      rw [calls]
      omega
    refine Own.mono (n := 3+calls right+1+calls left+1+1) (.pipe fun r => ?_) hsteps
    split
    · exact .exit
    · exact own_fork (by simp) (ihl (below_ne c false)) hright
  | list left right ihl ihr =>
    have hlast : ∀ pid, Own c [] 2 (.call c (.wait pid) fun _ => .exit c) := fun pid => .wait fun _ => .exit
    have hsecond : Own c [true] (2+calls right+1) (if isNull right then .exit c
        else .call c (.fork (c++[true])) fun pid =>
          if pid = 0 then execute right (c++[true]) (.call c (.wait pid) fun _ => .exit c)
          else .call c (.wait pid) fun _ => .exit c) := by
      split
      · exact .exit
      · exact own_fork List.not_mem_nil (ihr (below_ne c true)) hlast
    rw [execute]
    split
    · exact ⟨[true], hsecond.mono (by rw [calls]; omega)⟩
    · have hsteps : 2+calls right+1+1+calls left+1 ≤ calls (.list left right) := by
        rw [calls]
        omega
      refine ⟨[false, true], Own.mono (n := 2+calls right+1+1+calls left+1) ?_ hsteps⟩
      exact own_fork (by simp) (ihl (below_ne c false)) fun pid => .wait fun _ => hsecond

end Own

/-! ## What a run keeps -/

/-- A process is at code of its own place, and the children that it still has to make have
not been made; `pot` bounds the steps that are left to it. -/
def Fine (forked : List Place) (execs : List (Place × Place)) (pot : Place → ℕ) (x : Process) : Prop :=
  match x.life with
  | .runs code =>
    (∃ u n, n ≤ pot x.made ∧ Own x.made u n code ∧ ∀ b ∈ u, x.made++[b] ∉ forked) ∧ x.made ∉ execs.map Prod.snd
  | .image => 1 ≤ pot x.made
  | .zombie => True

structure Inv (s : State) (pot : Place → ℕ) : Prop where
  fine : ∀ p x, s.procs p = some x → Fine s.forked s.execs pot x
  made : ∀ p x, s.procs p = some x → x.made ∈ s.forked
  apart : ∀ p q x y, s.procs p = some x → s.procs q = some y → x.made = y.made → p = q
  forked : s.forked.Nodup
  closed : ∀ (c : Place) (b : Bool), c++[b] ∈ s.forked → c ∈ s.forked
  parent : ∀ q y p, s.procs q = some y → y.parent = some p →
    ∃ x b, s.procs p = some x ∧ x.life ≠ .zombie ∧ y.made = x.made++[b]
  once : (s.execs.map Prod.snd).Nodup
  own : ∀ e ∈ s.execs, e.1 = e.2 ∧ e.2 ∈ s.forked

/-- The steps that are left at most. -/
def left (s : State) (pot : Place → ℕ) : ℕ := (s.forked.map pot).sum

section Steps

variable {s s' : State} {pot pot' : Place → ℕ} {p q n : ℤ} {x y : Process} {c d : Place} {life : Life} {m : ℕ}

theorem sum_update (pot : Place → ℕ) (m : ℕ) {l : List Place} (hl : l.Nodup) (hc : c ∈ l) :
    (l.map (Function.update pot c m)).sum+pot c = (l.map pot).sum+m := by
  induction l with
  | nil => exact absurd hc List.not_mem_nil
  | cons d l ih =>
    obtain ⟨hd, hl⟩ := List.nodup_cons.mp hl
    rw [List.map_cons, List.map_cons, List.sum_cons, List.sum_cons]
    by_cases hcd : c = d
    · have hrest : l.map (Function.update pot c m) = l.map pot := by
        apply List.map_congr_left
        intro e he
        rw [Function.update_of_ne]
        rintro rfl
        exact hd (hcd ▸ he)
      rw [hrest, hcd, Function.update_self]
      omega
    · have hrest := ih hl ((List.mem_cons.mp hc).resolve_left hcd)
      rw [Function.update_of_ne (Ne.symm hcd)]
      omega

@[simp] theorem put_self : (s.put p x).procs p = some x := Function.update_self _ _ _

@[simp] theorem put_other (h : q ≠ p) : (s.put p x).procs q = s.procs q := Function.update_of_ne h _ _

@[simp] theorem release_self : (s.release q).procs q = none := Function.update_self _ _ _

@[simp] theorem release_other (h : p ≠ q) : (s.release q).procs p = s.procs p := Function.update_of_ne h _ _

theorem fine_congr (pot' : Place → ℕ) {forked : List Place} {execs : List (Place × Place)} (h : Fine forked execs pot x)
    (hpot : pot' x.made = pot x.made) : Fine forked execs pot' x := by
  rw [Fine] at h ⊢
  rw [hpot]
  exact h

theorem put_cases (hy : (s.put p x).procs q = some y) : (q = p ∧ y = x) ∨ (q ≠ p ∧ s.procs q = some y) := by
  by_cases hqp : q = p
  · subst hqp
    rw [put_self] at hy
    exact .inl ⟨rfl, (Option.some.inj hy).symm⟩
  · rw [put_other hqp] at hy
    exact .inr ⟨hqp, hy⟩

/-- One process goes on. -/
theorem Inv.put (h : Inv s pot) (hp : s.procs p = some x) (hlife : life ≠ .zombie)
    (hfine : Fine s.forked s.execs pot' { x with life := life }) (hpot : ∀ c, c ≠ x.made → pot' c = pot c) :
    Inv (s.put p { x with life := life }) pot' := by
  -- the process has the same place and the same parent as before
  have hbefore : ∀ q y, (s.put p { x with life := life }).procs q = some y →
      ∃ z, s.procs q = some z ∧ z.made = y.made ∧ z.parent = y.parent := by
    intro q y hy
    rcases put_cases hy with ⟨rfl, rfl⟩ | ⟨_, hy⟩
    · exact ⟨x, hp, rfl, rfl⟩
    · exact ⟨y, hy, rfl, rfl⟩
  refine ⟨fun q y hy => ?_, fun q y hy => ?_, fun q r y z hy hz hmade => ?_, h.forked, h.closed,
    fun q y r hy hr => ?_,
    h.once, h.own⟩
  · rcases put_cases hy with ⟨rfl, rfl⟩ | ⟨hqp, hy⟩
    · exact hfine
    · exact fine_congr _ (h.fine q y hy) (hpot _ fun hmade => hqp (h.apart q p y x hy hp hmade))
  · obtain ⟨z, hz, hmade, _⟩ := hbefore q y hy
    exact hmade ▸ h.made q z hz
  · obtain ⟨y', hy', hymade, _⟩ := hbefore q y hy
    obtain ⟨z', hz', hzmade, _⟩ := hbefore r z hz
    exact h.apart q r y' z' hy' hz' (by rw [hymade, hzmade, hmade])
  · obtain ⟨y', hy', hymade, hyparent⟩ := hbefore q y hy
    obtain ⟨w, b, hw, hlive, hplace⟩ := h.parent q y' r hy' (hyparent.trans hr)
    by_cases hrp : r = p
    · subst hrp
      rw [hp] at hw
      obtain rfl := Option.some.inj hw
      exact ⟨{ x with life := life }, b, put_self, hlife, by rw [← hymade, hplace]⟩
    · exact ⟨w, b, (put_other hrp).trans hw, hlive, by rw [← hymade, hplace]⟩

/-- A process makes a step in its own code. -/
theorem Inv.go {code : Code} {u : List Bool} (h : Inv s pot) (hp : s.procs p = some x) {old : Code}
    (hx : x.life = .runs old) (hown : Own x.made u m code) (hm : m+1 ≤ pot x.made)
    (hu : ∀ b ∈ u, x.made++[b] ∉ s.forked) :
    Inv (s.go p x code) (Function.update pot x.made m) ∧ left (s.go p x code) (Function.update pot x.made m) < left s pot := by
  have hfine := h.fine p x hp
  rw [Fine, hx] at hfine
  have hsum := sum_update pot m h.forked (h.made p x hp)
  have hpot : Function.update pot x.made m x.made = m := Function.update_self _ _ _
  refine ⟨h.put hp Life.noConfusion ⟨⟨u, m, hpot.ge, hown, hu⟩, hfine.2⟩ fun c hc => ?_, ?_⟩
  · exact Function.update_of_ne hc _ _
  · change (s.forked.map (Function.update pot x.made m)).sum < (s.forked.map pot).sum
    omega

/-- A zombie is released. -/
theorem Inv.release (h : Inv s pot) (hq : s.procs q = some y) (hy : y.life = .zombie) : Inv (s.release q) pot := by
  have hget : ∀ r z, (s.release q).procs r = some z → r ≠ q ∧ s.procs r = some z := by
    intro r z hz
    by_cases hrq : r = q
    · subst hrq
      rw [release_self] at hz
      cases hz
    · rw [release_other hrq] at hz
      exact ⟨hrq, hz⟩
  refine ⟨fun r z hz => h.fine r z (hget r z hz).2, fun r z hz => h.made r z (hget r z hz).2,
    fun r r' z z' hz hz' => h.apart r r' z z' (hget r z hz).2 (hget r' z' hz').2, h.forked, h.closed, fun r z p hz hp => ?_,
    h.once, h.own⟩
  obtain ⟨x, b, hx, hlive, hplace⟩ := h.parent r z p (hget r z hz).2 hp
  have hpq : p ≠ q := by
    rintro rfl
    rw [hq] at hx
    obtain rfl := Option.some.inj hx
    exact hlive hy
  exact ⟨x, b, (release_other hpq).trans hx, hlive, hplace⟩

/-- A place that is not below the process changes nothing for it. -/
theorem Fine.beside {forked : List Place} {execs : List (Place × Place)} (h : Fine forked execs pot y)
    (hd : ∀ b : Bool, y.made++[b] ≠ d) : Fine (d :: forked) execs pot y := by
  rw [Fine] at h ⊢
  split at h
  next code hlife =>
    obtain ⟨⟨u, n, hn, hown, hu⟩, hnot⟩ := h
    refine ⟨⟨u, n, hn, hown, fun b hb hc => ?_⟩, hnot⟩
    rcases List.mem_cons.mp hc with hsame | hc
    · exact hd b hsame
    · exact hu b hb hc
  next => exact h
  next => trivial

/-- Nothing is below a new process. -/
theorem Inv.fine_child {child : Code} {u : List Bool} {k : ℕ} (h : Inv s pot) (hfresh : d ∉ s.forked)
    (hchild : Own d u k child) (hk : k ≤ pot d) : Fine (d :: s.forked) s.execs pot ⟨d, some p, .runs child⟩ := by
  refine ⟨⟨u, k, hk, hchild, fun e _ hc => ?_⟩, fun hc => ?_⟩
  · rcases List.mem_cons.mp hc with hsame | hc
    · exact below_ne _ e hsame.symm
    · exact hfresh (h.closed _ e hc)
  · obtain ⟨e, he, hplace⟩ := List.mem_map.mp hc
    have hin := (h.own e he).2
    rw [hplace] at hin
    exact hfresh hin

/-- The processes that are there stay fine when process `p` uses up one of its places. -/
theorem Inv.fine_rest {code : Code} {u : List Bool} {b : Bool} (h : Inv s pot) (hp : s.procs p = some x)
    (hx : x.life = .runs code) (hown : Own x.made u m code) (hm : m ≤ pot x.made) (hb : b ∉ u)
    (hu : ∀ e ∈ u, x.made++[e] ∉ s.forked) (hy : s.procs q = some y) : Fine ((x.made++[b]) :: s.forked) s.execs pot y := by
  by_cases hqp : q = p
  · subst hqp
    rw [hp] at hy
    obtain rfl := Option.some.inj hy
    have hfine := h.fine q x hp
    rw [Fine, hx] at hfine
    rw [Fine, hx]
    refine ⟨⟨u, m, hm, hown, fun e he hc => ?_⟩, hfine.2⟩
    rcases List.mem_cons.mp hc with hsame | hc
    · exact hb (List.singleton_inj.mp (List.append_cancel_left hsame) ▸ he)
    · exact hu e he hc
  · apply (h.fine q y hy).beside
    intro e hsame
    exact hqp (h.apart q p y x hy hp (List.append_inj_left' hsame rfl))

/-- A process that is at code for its other children gets a child at a place of its own. -/
theorem Inv.adds {code child : Code} {u u' : List Bool} {b : Bool} {k : ℕ} (h : Inv s pot) (hp : s.procs p = some x)
    (hx : x.life = .runs code) (hn : s.procs n = none) (hown : Own x.made u m code) (hm : m ≤ pot x.made) (hb : b ∉ u)
    (hu : ∀ e ∈ u, x.made++[e] ∉ s.forked) (hfresh : x.made++[b] ∉ s.forked) (hchild : Own (x.made++[b]) u' k child)
    (hk : k ≤ pot (x.made++[b])) : Inv (s.fork p n (x.made++[b]) child) pot := by
  have hpn : p ≠ n := by
    rintro rfl
    rw [hp] at hn
    cases hn
  have hget : ∀ q y, (s.fork p n (x.made++[b]) child).procs q = some y →
      (q = n ∧ y = ⟨x.made++[b], some p, .runs child⟩) ∨ (q ≠ n ∧ s.procs q = some y) := fun q y hy => put_cases hy
  refine ⟨fun q y hy => ?_, fun q y hy => ?_, fun q r y z hy hz hmade => ?_,
    List.nodup_cons.mpr ⟨hfresh, h.forked⟩, fun c e hc => ?_, fun q y r hy hr => ?_, h.once, fun e he => ?_⟩
  · rcases hget q y hy with ⟨_, rfl⟩ | ⟨_, hys⟩
    · exact h.fine_child hfresh hchild hk
    · exact h.fine_rest hp hx hown hm hb hu hys
  · rcases hget q y hy with ⟨_, rfl⟩ | ⟨_, hys⟩
    · exact List.mem_cons_self
    · exact List.mem_cons_of_mem _ (h.made q y hys)
  · rcases hget q y hy with ⟨hqn, rfl⟩ | ⟨_, hys⟩
    · rcases hget r z hz with ⟨hrn, _⟩ | ⟨_, hzs⟩
      · rw [hqn, hrn]
      · have hin := h.made r z hzs
        rw [← hmade] at hin
        exact absurd hin hfresh
    · rcases hget r z hz with ⟨_, rfl⟩ | ⟨_, hzs⟩
      · have hin := h.made q y hys
        rw [hmade] at hin
        exact absurd hin hfresh
      · exact h.apart q r y z hys hzs hmade
  · rcases List.mem_cons.mp hc with hsame | hc
    · rw [List.append_inj_left' hsame rfl]
      exact List.mem_cons_of_mem _ (h.made p x hp)
    · exact List.mem_cons_of_mem _ (h.closed c e hc)
  · rcases hget q y hy with ⟨_, rfl⟩ | ⟨_, hys⟩
    · obtain rfl := Option.some.inj hr
      exact ⟨x, b, (put_other hpn).trans hp, by rw [hx]; exact Life.noConfusion, rfl⟩
    · obtain ⟨w, e, hw, hlive, hplace⟩ := h.parent q y r hys hr
      have hrn : r ≠ n := by
        rintro rfl
        rw [hn] at hw
        cases hw
      exact ⟨w, e, (put_other hrn).trans hw, hlive, hplace⟩
  · obtain ⟨hsame, hin⟩ := h.own e he
    exact ⟨hsame, List.mem_cons_of_mem _ hin⟩

/-- The bound of a place that no process has yet can be chosen. -/
theorem Inv.choose (h : Inv s pot) (hd : d ∉ s.forked) (k : ℕ) : Inv s (Function.update pot d k) := by
  refine ⟨fun q y hy => fine_congr _ (h.fine q y hy) ?_, h.made, h.apart, h.forked, h.closed, h.parent, h.once, h.own⟩
  apply Function.update_of_ne
  rintro rfl
  exact hd (h.made q y hy)

/-- A process makes a child. -/
theorem Inv.fork {code child : Code} {u u' : List Bool} {b : Bool} {k : ℕ} (h : Inv s pot) (hp : s.procs p = some x)
    {old : Code} (hx : x.life = .runs old) (hn : s.procs n = none) (hb : b ∉ u)
    (hown : Own x.made u m code) (hchild : Own (x.made++[b]) u' k child) (hm : m+k+1 ≤ pot x.made)
    (hu : ∀ e ∈ b :: u, x.made++[e] ∉ s.forked) :
    ∃ pot', Inv ((s.go p x code).fork p n (x.made++[b]) child) pot' ∧
      left ((s.go p x code).fork p n (x.made++[b]) child) pot' < left s pot := by
  have hfresh := hu b List.mem_cons_self
  have hu' : ∀ e ∈ u, x.made++[e] ∉ s.forked := fun e he => hu e (List.mem_cons_of_mem _ he)
  obtain ⟨hgo, _⟩ := h.go (m := m) hp hx hown (by omega) hu'
  have hsum := sum_update pot m h.forked (h.made p x hp)
  have hpotp : Function.update pot x.made m x.made = m := Function.update_self _ _ _
  generalize Function.update pot x.made m = pot₁ at hgo hsum hpotp
  have hpn : n ≠ p := by
    rintro rfl
    rw [hp] at hn
    cases hn
  -- the place of the child is new, so that the bound of no other process changes
  have hpot : ∀ c ∈ s.forked, Function.update pot₁ (x.made++[b]) k c = pot₁ c := by
    intro c hc
    apply Function.update_of_ne
    rintro rfl
    exact hfresh hc
  refine ⟨Function.update pot₁ (x.made++[b]) k, ?_, ?_⟩
  · have hm' : m ≤ Function.update pot₁ (x.made++[b]) k x.made := by
      rw [hpot _ (h.made p x hp), hpotp]
    have hk : k ≤ Function.update pot₁ (x.made++[b]) k (x.made++[b]) := by
      rw [Function.update_self]
    have hmade : (s.go p x code).procs p = some { x with life := .runs code } := put_self
    exact (hgo.choose hfresh k).adds (x := { x with life := .runs code }) hmade rfl ((put_other hpn).trans hn) hown hm' hb
      hu' hfresh hchild hk
  · change (((x.made++[b]) :: s.forked).map (Function.update pot₁ (x.made++[b]) k)).sum < (s.forked.map pot).sum
    rw [List.map_cons, List.sum_cons, Function.update_self, List.map_congr_left hpot]
    omega

/-- A process starts its image. -/
theorem Inv.exec {old : Code} (h : Inv s pot) (hp : s.procs p = some x) (hx : x.life = .runs old)
    (hpot : 2 ≤ pot x.made) :
    Inv (s.exec p x x.made) (Function.update pot x.made 1) ∧
      left (s.exec p x x.made) (Function.update pot x.made 1) < left s pot := by
  have hsum := sum_update pot 1 h.forked (h.made p x hp)
  have hone : Function.update pot x.made 1 x.made = 1 := Function.update_self _ _ _
  have hfine := h.fine p x hp
  rw [Fine, hx] at hfine
  have himage : Fine s.forked s.execs (Function.update pot x.made 1) { x with life := .image } := hone.ge
  have hput := h.put hp Life.noConfusion himage fun c hc => Function.update_of_ne hc _ _
  refine ⟨⟨fun q y hy => ?_, hput.made, hput.apart, hput.forked, hput.closed, hput.parent,
    List.nodup_cons.mpr ⟨hfine.2, h.once⟩, fun e he => ?_⟩, ?_⟩
  · have hold := hput.fine q y hy
    rw [Fine] at hold ⊢
    split at hold
    next code hlife =>
      obtain ⟨hown, hnot⟩ := hold
      refine ⟨hown, fun hc => ?_⟩
      rcases List.mem_cons.mp hc with hsame | hc
      · -- another process is not at this place, and this one runs no code
        have hqp := hput.apart q p y _ hy put_self hsame
        subst hqp
        obtain rfl := Option.some.inj (put_self.symm.trans hy)
        cases hlife
      · exact hnot hc
    next => exact hold
    next => trivial
  · rcases List.mem_cons.mp he with rfl | he
    · exact ⟨rfl, h.made p x hp⟩
    · exact h.own e he
  · change (s.forked.map (Function.update pot x.made 1)).sum < (s.forked.map pot).sum
    omega

/-- A process ends. -/
theorem Inv.leave (h : Inv s pot) (hp : s.procs p = some x) (hpot : 1 ≤ pot x.made) :
    Inv (s.leave p x) (Function.update pot x.made 0) ∧ left (s.leave p x) (Function.update pot x.made 0) < left s pot := by
  have hsum := sum_update pot 0 h.forked (h.made p x hp)
  -- every process is there as before, but for its parent
  have hget : ∀ q y, (s.leave p x).procs q = some y →
      (q = p ∧ y = { x with life := .zombie }) ∨
      (q ≠ p ∧ ∃ z, s.procs q = some z ∧ z.made = y.made ∧ z.life = y.life ∧
        ∀ r, y.parent = some r → z.parent = some r ∧ r ≠ p) := by
    intro q y hy
    rw [State.leave] at hy
    simp only at hy
    split at hy
    next hqp => exact .inl ⟨hqp, (Option.some.inj hy).symm⟩
    next hqp =>
      obtain ⟨z, hz, hzy⟩ := Option.map_eq_some_iff.mp hy
      refine .inr ⟨hqp, z, hz, ?_⟩
      split at hzy
      next hparent =>
        subst hzy
        exact ⟨rfl, rfl, fun r hr => nomatch hr⟩
      next hparent =>
        subst hzy
        exact ⟨rfl, rfl, fun r hr => ⟨hr, fun hrp => hparent (hrp ▸ hr)⟩⟩
  have hmade : ∀ q y, (s.leave p x).procs q = some y → ∃ z, s.procs q = some z ∧ z.made = y.made := by
    intro q y hy
    rcases hget q y hy with ⟨rfl, rfl⟩ | ⟨_, z, hz, hzy, _, _⟩
    · exact ⟨x, hp, rfl⟩
    · exact ⟨z, hz, hzy⟩
  have hlook : ∀ r w, r ≠ p → s.procs r = some w →
      ∃ w', (s.leave p x).procs r = some w' ∧ w'.made = w.made ∧ w'.life = w.life := by
    intro r w hrp hw
    by_cases hparent : w.parent = some p
    · exact ⟨{ w with parent := none }, by simp [State.leave, hrp, hw, hparent], rfl, rfl⟩
    · exact ⟨w, by simp [State.leave, hrp, hw, hparent], rfl, rfl⟩
  refine ⟨⟨fun q y hy => ?_, fun q y hy => ?_, fun q r y z hy hz hyz => ?_, h.forked, h.closed, fun q y r hy hr => ?_,
    h.once, h.own⟩, ?_⟩
  · rcases hget q y hy with ⟨rfl, rfl⟩ | ⟨hqp, z, hz, hzy, hlife, _⟩
    · trivial
    · have hne : z.made ≠ x.made := fun hc => hqp (h.apart q p z x hz hp hc)
      have hfine := fine_congr (Function.update pot x.made 0) (h.fine q z hz) (Function.update_of_ne hne _ _)
      rw [Fine, hlife, hzy] at hfine
      exact hfine
  · obtain ⟨z, hz, hzy⟩ := hmade q y hy
    exact hzy ▸ h.made q z hz
  · obtain ⟨y', hy', hyy⟩ := hmade q y hy
    obtain ⟨z', hz', hzz⟩ := hmade r z hz
    exact h.apart q r y' z' hy' hz' (by rw [hyy, hzz, hyz])
  · have hbelow : ∃ z, s.procs q = some z ∧ z.made = y.made ∧ z.parent = some r ∧ r ≠ p := by
      rcases hget q y hy with ⟨rfl, rfl⟩ | ⟨_, z, hz, hzy, _, hparent⟩
      · refine ⟨x, hp, rfl, hr, ?_⟩
        rintro rfl
        obtain ⟨w, b, hw, _, hplace⟩ := h.parent r x r hp hr
        rw [hp] at hw
        obtain rfl := Option.some.inj hw
        exact below_ne _ b hplace
      · exact ⟨z, hz, hzy, hparent r hr⟩
    obtain ⟨z, hz, hzy, hzr, hrp⟩ := hbelow
    obtain ⟨w, b, hw, hlive, hplace⟩ := h.parent q z r hz hzr
    obtain ⟨w', hw', hmade', hlife'⟩ := hlook r w hrp hw
    exact ⟨w', b, hw', by rw [hlife']; exact hlive, by rw [← hzy, hplace, hmade']⟩
  · change (s.forked.map (Function.update pot x.made 0)).sum < (s.forked.map pot).sum
    omega

variable {a : Action} {call : Call} {next : ℤ → Code}

theorem Inv.at_own (h : Inv s pot) (hat : s.At p x c call next) :
    ∃ u m, m ≤ pot x.made ∧ Own x.made u m (.call c call next) ∧ ∀ b ∈ u, x.made++[b] ∉ s.forked := by
  have hfine := h.fine p x hat.1
  rw [Fine, hat.2] at hfine
  exact hfine.1

/-- A step keeps the invariant, unless a command cannot be started. -/
theorem inv_step (h : Inv s pot) (hs : Step s a s') (ha : ¬ a.Fails) :
    ∃ pot', Inv s' pot' ∧ left s' pot' < left s pot := by
  cases hs with
  | opened r hat =>
    obtain ⟨u, n, hn, hown, hu⟩ := h.at_own hat
    obtain ⟨⟨m, rfl, hnext⟩, _⟩ := hown.of_openFile
    exact ⟨_, h.go hat.1 hat.2 (hnext r (not_lt.mp ha)) hn hu⟩
  | piped r hat =>
    obtain ⟨u, n, hn, hown, hu⟩ := h.at_own hat
    obtain ⟨m, rfl, hnext⟩ := hown.of_pipe
    exact ⟨_, h.go hat.1 hat.2 (hnext r) hn hu⟩
  | forked hat hpos hfree =>
    obtain ⟨u, n, hn, hown, hu⟩ := h.at_own hat
    obtain ⟨b, v, v', m, k, rfl, rfl, rfl, hb, hchild, hnext⟩ := hown.of_fork
    exact h.fork hat.1 hat.2 hfree hb (hnext _ (by omega)) hchild hn hu
  | forkFailed hat =>
    obtain ⟨u, n, hn, hown, hu⟩ := h.at_own hat
    obtain ⟨b, v, v', m, k, rfl, rfl, rfl, hb, hchild, hnext⟩ := hown.of_fork
    exact ⟨_, h.go hat.1 hat.2 (hnext (-1) (by omega)) (by omega) fun b hb => hu b (List.mem_cons_of_mem _ hb)⟩
  | @reaped p q _ x y _ next hat hw hz =>
    obtain ⟨u, n, hn, hown, hu⟩ := h.at_own hat
    obtain ⟨m, rfl, hnext⟩ := hown.of_wait
    have hpq : p ≠ q := by
      rintro rfl
      have hsame := Option.some.inj (hat.1.symm.trans hw.1)
      rw [← hsame, hat.2] at hz
      cases hz
    have hp : (s.release q).procs p = some x := (release_other hpq).trans hat.1
    exact ⟨_, (h.release hw.1 hz).go hp hat.2 (hnext 0) hn hu⟩
  | resumed hat _ =>
    obtain ⟨u, n, hn, hown, hu⟩ := h.at_own hat
    obtain ⟨m, rfl, hnext⟩ := hown.of_wait
    exact ⟨_, h.go hat.1 hat.2 (hnext 0) hn hu⟩
  | execed hat =>
    obtain ⟨u, n, hn, hown, hu⟩ := h.at_own hat
    obtain ⟨rfl, htwo, _⟩ := hown.of_exec
    exact ⟨_, h.exec hat.1 hat.2 (htwo.trans hn)⟩
  | execFailed r hat => exact absurd trivial ha
  | ended hp hends =>
    refine ⟨_, h.leave hp ?_⟩
    have hfine := h.fine _ _ hp
    rw [Fine] at hfine
    split at hfine
    next code hlife =>
      obtain ⟨⟨u, m, hm, hown, _⟩, _⟩ := hfine
      rw [hlife] at hends
      exact (hown.of_ends hends).trans hm
    next => exact hfine
    next hlife =>
      rw [hlife] at hends
      exact hends.elim

/-- A process that is not over can make a step, or one below it can. -/
theorem step_exists (h : Inv s pot) {H : ℕ} (hH : ∀ c ∈ s.forked, c.length ≤ H) (hp : s.procs p = some x)
    (hx : x.life ≠ .zombie) (hloop : x.life ≠ .runs .loop) : ∃ a s', Step s a s' := by
  induction hk : H-x.made.length using Nat.strong_induction_on generalizing p x with
  | _ k ih =>
    have hfine := h.fine p x hp
    rw [Fine] at hfine
    split at hfine
    next code hlife =>
      obtain ⟨⟨u, m, hm, hown, _⟩, _⟩ := hfine
      cases code with
      | loop => exact absurd hlife hloop
      | fault =>
        refine ⟨_, _, .ended hp ?_⟩
        rw [hlife]
        trivial
      | exit o =>
        refine ⟨_, _, .ended hp ?_⟩
        rw [hlife]
        trivial
      | call o call next =>
        cases call with
        | openFile f => exact ⟨_, _, .opened 0 ⟨hp, hlife⟩⟩
        | pipe => exact ⟨_, _, .piped 0 ⟨hp, hlife⟩⟩
        | fork d => exact ⟨_, _, .forkFailed ⟨hp, hlife⟩⟩
        | exec cmd => exact ⟨_, _, .execed ⟨hp, hlife⟩⟩
        | wait pid =>
          by_cases hw : ∃ q y, s.Waited p pid q y
          · obtain ⟨q, y, hw⟩ := hw
            by_cases hz : y.life = .zombie
            · exact ⟨_, _, .reaped ⟨hp, hlife⟩ hw hz⟩
            · -- the child is below, and it is no shell
              obtain ⟨w, b, hpw, _, hplace⟩ := h.parent q y p hw.1 hw.2.1
              rw [hp] at hpw
              obtain rfl := Option.some.inj hpw
              have hlen := hH _ (h.made q y hw.1)
              have hlonger : y.made.length = x.made.length+1 := by
                rw [hplace, List.length_append, List.length_singleton]
              refine ih (H-y.made.length) (by omega) hw.1 hz (fun hl => ?_) rfl
              have hfine := h.fine q y hw.1
              rw [Fine, hl] at hfine
              obtain ⟨⟨_, _, _, hown, _⟩, _⟩ := hfine
              have hroot : y.made = [] := hown.owned
              rw [hroot] at hlonger
              simp at hlonger
          · exact ⟨_, _, .resumed ⟨hp, hlife⟩ fun q y hqy => hw ⟨q, y, hqy⟩⟩
    next hlife =>
      refine ⟨_, _, .ended hp ?_⟩
      rw [hlife]
      trivial
    next hlife => exact absurd hlife hx

theorem Inv.lawful (h : Inv s pot) : Lawful s := by
  refine ⟨h.once, fun e he => (h.own e he).1, fun p x code hp hx => ?_, fun hstuck p x hp hmade => ?_⟩
  · have hfine := h.fine p x hp
    rw [Fine, hx] at hfine
    obtain ⟨⟨_, _, _, hown, _⟩, _⟩ := hfine
    exact hown.owned
  · by_contra hx
    have hH : ∀ c ∈ s.forked, c.length ≤ (s.forked.map List.length).sum := fun c hc =>
      List.single_le_sum (fun _ _ => Nat.zero_le _) _ (List.mem_map_of_mem hc)
    obtain ⟨a, s', hs⟩ := step_exists h hH hp hx fun hloop => by
      have hfine := h.fine p x hp
      rw [Fine, hloop] at hfine
      obtain ⟨⟨_, _, _, hown, _⟩, _⟩ := hfine
      exact hmade hown.owned
    exact hstuck a s' hs

/-- Where a command cannot be started, its process goes on with code of another place. -/
theorem unlawful_of_fails (h : Inv s pot) (hs : Step s a s') (ha : a.Fails) : ¬ Lawful s' := by
  cases hs with
  | @opened p x c f next r hat =>
    obtain ⟨u, m, hm, hown, hu⟩ := h.at_own hat
    have hback := hown.of_openFile.2 r ha
    exact fun hl => hback (hl.keeps p { x with life := .runs (next r) } (next r) put_self rfl)
  | @execFailed p x c cmd next r hat =>
    obtain ⟨u, m, hm, hown, hu⟩ := h.at_own hat
    have hback := hown.of_exec.2.2 r
    exact fun hl => hback (hl.keeps p { x with life := .runs (next r) } (next r) put_self rfl)
  | _ => exact ha.elim

end Steps

/-! ## Runs -/

section Runs

variable {shell : ℤ} {tree : Command} {h : List (State × Action)} {s : State}

theorem inv_start (shell : ℤ) (tree : Command) :
    ∃ pot, Inv (start shell tree) pot ∧ left (start shell tree) pot ≤ calls tree+2 := by
  have hroot : ∃ u, Own ([]++[true]) u (calls tree) (execute tree ([]++[true]) (.call [] (.wait 0) fun _ => .loop)) :=
    own_execute tree fun hc => nomatch hc
  have hown : Own [] [true] (1+calls tree+1) (process tree) :=
    own_fork List.not_mem_nil hroot fun pid => .wait fun _ => .loop
  have hget : ∀ q y, (start shell tree).procs q = some y → q = shell ∧ y = ⟨[], none, .runs (process tree)⟩ := by
    intro q y hy
    by_cases hq : q = shell
    · subst hq
      have hself : (start q tree).procs q = some ⟨[], none, .runs (process tree)⟩ := by simp [start]
      rw [hself] at hy
      exact ⟨rfl, (Option.some.inj hy).symm⟩
    · have hother : (start shell tree).procs q = none := by simp [start, hq]
      rw [hother] at hy
      cases hy
  refine ⟨fun _ => calls tree+2, ⟨fun q y hy => ?_, fun q y hy => ?_, fun q r y z hy hz _ => ?_, List.nodup_singleton _,
    fun c b hc => ?_, fun q y p hy hp => ?_, List.nodup_nil, fun e he => nomatch he⟩, le_rfl⟩
  · obtain ⟨_, rfl⟩ := hget q y hy
    have hle : 1+calls tree+1 ≤ calls tree+2 := by omega
    refine ⟨⟨[true], _, hle, hown, fun b _ hc => ?_⟩, fun hc => nomatch hc⟩
    exact absurd (List.mem_singleton.mp hc) (by simp)
  · obtain ⟨_, rfl⟩ := hget q y hy
    exact List.mem_singleton_self _
  · rw [(hget q y hy).1, (hget r z hz).1]
  · exact absurd (List.mem_singleton.mp hc) (by simp)
  · obtain ⟨_, rfl⟩ := hget q y hy
    cases hp

theorem inv_run (hrun : Run shell tree h s) (hclean : Clean h) :
    ∃ pot, Inv s pot ∧ h.length+left s pot ≤ calls tree+2 := by
  induction hrun with
  | start =>
    obtain ⟨pot, hinv, hle⟩ := inv_start shell tree
    exact ⟨pot, hinv, by rw [List.length_nil]; omega⟩
  | step hrun hs ih =>
    obtain ⟨pot, hinv, hle⟩ := ih fun x hx => hclean x (List.mem_cons_of_mem _ hx)
    obtain ⟨pot', hinv', hlt⟩ := inv_step hinv hs (hclean _ List.mem_cons_self)
    exact ⟨pot', hinv', by rw [List.length_cons]; omega⟩

theorem lawful_run (hrun : Run shell tree h s) (hclean : Clean h) : (∀ x ∈ h, Lawful x.1) ∧ Lawful s := by
  induction hrun with
  | start =>
    obtain ⟨pot, hinv, _⟩ := inv_start shell tree
    exact ⟨fun x hx => (nomatch hx), hinv.lawful⟩
  | @step h s s' a hrun hs ih =>
    have hrest : Clean h := fun x hx => hclean x (List.mem_cons_of_mem _ hx)
    obtain ⟨hbefore, hlast⟩ := ih hrest
    obtain ⟨pot, hinv, _⟩ := inv_run (hrun.step hs) hclean
    refine ⟨fun x hx => ?_, hinv.lawful⟩
    rcases List.mem_cons.mp hx with rfl | hx
    · exact hlast
    · exact hbefore x hx

/-- A command without arguments. -/
def plain : ExecCommand := ExecCommand.addArg ⟨0, [], none, none, false⟩ [NumberRendering.chr 'a']

end Runs

end BabyOS.ShellProcesses
