import Camellia.Kernel.State

namespace Camellia.Execbuf

def EXECBUF_MAX_LEN : ℕ := 4096
def EXECBUF_SYSCALL : UInt64 := 0xf0000001
def EXECBUF_JMP : UInt64 := 0xf0000002
def SYS_EXECBUF : UInt64 := 100

-- The members of a process which a buffer has to do with, where no buffer is NULL.
structure Proc where
  state  : PState
  rcx    : UInt64
  rax    : Int := 0
  intrFn : UInt64 := 0
  buf    : Option (List UInt8) := none
  len    : ℕ := 0
  pos    : ℕ := 0
  deriving DecidableEq

-- A process accepts a buffer, which then makes a system call, jumps, and is freed. A process is redirected to its
-- interrupt handler, it is killed, and it goes on in user mode.
inductive Event
  | accepted (p : Pid) (bytes : List UInt8)
  | syscall (p : Pid) (args : List UInt64)
  | jump (p : Pid) (target : UInt64)
  | freed (p : Pid)
  | intr (p : Pid) (handler : UInt64)
  | killed (p : Pid)
  | resumed (p : Pid) (rip : UInt64)
  deriving DecidableEq, Repr

-- All processes, with `proc_cur` and whether this one is in user mode.
structure Sys where
  procs : Heap Proc
  cur   : Pid
  user  : Bool
  log   : List Event
  deriving DecidableEq

def Sys.update (s : Sys) (p : Pid) (v : Proc) (es : List Event) : Sys :=
  { s with procs := s.procs.set p v, log := s.log ++ es }

-- The little endian number in eight bytes.
def word (bytes : List UInt8) : UInt64 :=
  .ofNat <| bytes.foldr (fun b n => b.toNat + 256 * n) 0

-- The complete words of a buffer.
def words (bytes : List UInt8) : List UInt64 :=
  (List.range (bytes.length / 8)).map fun i => word <| (bytes.drop (i * 8)).take 8

-- What comes of `try_fetch`, which does not return if it halts. It should never read behind the allocation.
inductive Fetch
  | halt
  | past
  | words (ws : List UInt64) (v : Proc)

def Proc.advance (v : Proc) (amt : ℕ) : Proc :=
  { v with pos := v.pos + amt * 8 }

def tryFetch (v : Proc) (amt : ℕ) : Fetch :=
  let bytes := amt * 8
  let buf := v.buf.getD []
  if v.len < v.pos + bytes then
    .halt
  else if buf.length < v.pos + bytes then
    .past
  else
    .words (words <| (buf.drop v.pos).take bytes) (v.advance amt)

-- What comes of `execbuf_run`, together with its events, where the system call is not yet made.
inductive Outcome
  | fault
  | halted (v : Proc) (es : List Event)
  | called (args : List UInt64) (v : Proc) (es : List Event)

def Outcome.after (e : Event) : Outcome → Outcome
  | fault            => fault
  | halted v es      => halted v (e :: es)
  | called args v es => called args v (e :: es)

def halt (p : Pid) (v : Proc) : Outcome :=
  .halted { v with buf := none } [.freed p]

theorem tryFetch_words {v w : Proc} {amt : ℕ} {ws : List UInt64} (h : tryFetch v amt = .words ws w) :
    w = v.advance amt ∧ v.pos + amt * 8 ≤ v.len := by
  simp only [tryFetch] at h
  split_ifs at h
  cases h
  exact ⟨rfl, by omega⟩

-- The assertions hold again in every round, and are checked in each.
def execbufRun (p : Pid) (v : Proc) : Outcome :=
  if v.state ≠ .running ∨ v.buf = none then
    .fault
  else
    match _h₁ : tryFetch v 1 with
    | .past       => .fault
    | .halt       => halt p v
    | .words ws w =>
      if ws.headD 0 = EXECBUF_SYSCALL then
        match tryFetch w 6 with
        | .past         => .fault
        | .halt         => halt p w
        | .words args w => .called args w []
      else if ws.headD 0 = EXECBUF_JMP then
        match _h₂ : tryFetch w 1 with
        | .past       => .fault
        | .halt       => halt p w
        | .words ws u => (execbufRun p { u with rcx := ws.headD 0 }).after (.jump p (ws.headD 0))
      else
        halt p w
termination_by v.len - v.pos
decreasing_by
  obtain ⟨rfl, _⟩ := tryFetch_words _h₁
  obtain ⟨rfl, _⟩ := tryFetch_words _h₂
  simp only [Proc.advance] at *
  omega

-- `_sys_execbuf`, where `pcpy_from` has copied these bytes to a new buffer of `len` bytes, or fewer.
def sysExecbuf (p : Pid) (len : ℕ) (copied : List UInt8) (s : Sys) : Sys :=
  match s.procs.get p with
  | none   => s
  | some v =>
    if len = 0 then
      s.update p { v with rax := 0 } []
    else if EXECBUF_MAX_LEN < len then
      s.update p { v with rax := -1 } []
    else if v.buf.isSome then
      s.update p { v with rax := -1 } []
    else if copied.length < len then
      s.update p { v with rax := -1 } []
    else
      s.update p { v with rax := 0, buf := some (copied.take len), len := len, pos := 0 } [.accepted p (copied.take len)]

-- What the system calls except for `_sys_execbuf` do is left to the acts below.
def syscall (p : Pid) (args : List UInt64) (copied : List UInt8) (s : Sys) : Sys :=
  if args.headD 0 = SYS_EXECBUF then sysExecbuf p (args.getD 2 0).toNat copied s else s

-- The end of `proc_switch_any`, once a process is chosen. After a buffer has been freed it is chosen again.
def procSwitchTo (p : Pid) (copied : List UInt8) (s : Sys) : Option Sys :=
  match s.procs.get p with
  | none   => none
  | some v =>
    if v.buf = none then
      some { s with cur := p, user := true, log := s.log ++ [.resumed p v.rcx] }
    else
      match execbufRun p v with
      | .fault            => none
      | .halted w es      => some { s.update p w (es ++ [.resumed p w.rcx]) with cur := p, user := true }
      | .called args w es => some <| syscall p args copied { s.update p w (es ++ [.syscall p args]) with cur := p }

-- The part of `proc_kill` which concerns the buffer. The states of dead processes are not told apart.
def procKill (p : Pid) (s : Sys) : Sys :=
  match s.procs.get p with
  | none   => s
  | some v =>
    if v.state.alive then
      s.update p { v with state := .tombstone, buf := none } ((if v.buf.isSome then [.freed p] else []) ++ [.killed p])
    else
      s

-- `proc_intr`, for other messages than the one which kills.
def procIntr (p : Pid) (s : Sys) : Sys :=
  match s.procs.get p with
  | none   => s
  | some v =>
    if v.intrFn = 0 then
      s
    else
      s.update p { v with rcx := v.intrFn, state := if v.state = .waits4timer then .running else v.state }
        [.intr p v.intrFn]

-- Whether a process waits for something, which is then over once it is running again.
def waits : PState → Bool
  | .waits4childdeath | .waits4fs | .waits4request | .waits4pipe | .waits4timer => true
  | _                                                                           => false

-- Everything else that the kernel does to these members, be it in a system call or in an interrupt.
inductive Act
  | block (p : Pid) (state : PState)
  | wake (p : Pid)
  | ret (p : Pid) (rax : Int)
  | kill (p : Pid)
  | intr (p : Pid)
  | intrSet (p : Pid) (intrFn : UInt64)
  | fork (p : Pid)

-- The process which an act is about.
def Act.proc : Act → Pid
  | .block p _ | .wake p | .ret p _ | .kill p | .intr p | .intrSet p _ | .fork p => p

-- `proc_setstate` lets only a running process wait, and only those which wait are woken up.
def Act.Allowed (v : Proc) : Act → Prop
  | .block _ state => v.state = .running ∧ waits state
  | .wake _        => waits v.state
  | .fork _        => v.state = .running
  | _              => True

def Sys.modify (s : Sys) (p : Pid) (f : Proc → Proc) : Sys :=
  match s.procs.get p with
  | none   => s
  | some v => s.update p (f v) []

-- A child starts with the registers and the handler of its parent, but without a buffer.
def procFork (p : Pid) (s : Sys) : Sys :=
  match s.procs.get p with
  | none   => s
  | some v => { s with procs := s.procs.alloc { state := v.state, rcx := v.rcx, intrFn := v.intrFn } }

def Act.run (s : Sys) : Act → Sys
  | .block p state    => s.modify p ({ · with state := state })
  | .wake p           => s.modify p ({ · with state := .running })
  | .ret p rax        => s.modify p ({ · with rax := rax })
  | .kill p           => procKill p s
  | .intr p           => procIntr p s
  | .intrSet p intrFn => s.modify p ({ · with intrFn := intrFn })
  | .fork p           => procFork p s

-- One step of the whole system. The acts of a system call follow the step in which it is made, and every other
-- process may do something in between.
inductive Step (s : Sys) : Sys → Prop
  | act {v : Proc} (a : Act) : s.procs.get a.proc = some v → a.Allowed v → Step s (a.run s)
  -- `sysenter_stage2`
  | enter {v : Proc} (rcx : UInt64) (args : List UInt64) (copied : List UInt8) :
    s.user = true → s.procs.get s.cur = some v → v.state = .running →
    Step s (syscall s.cur args copied { s.update s.cur { v with rcx := rcx } [] with user := false })
  -- `isr_stage3`, for an exception in user mode
  | trap {v : Proc} : s.user = true → s.procs.get s.cur = some v → Step s { procKill s.cur s with user := false }
  -- `proc_switch_any`, which prefers the process that is running already
  | switch {v : Proc} {t : Sys} (p : Pid) (copied : List UInt8) :
    s.user = false → s.procs.get p = some v → v.state = .running →
    (∀ w, s.procs.get s.cur = some w → w.state = .running → p = s.cur) →
    procSwitchTo p copied s = some t → Step s t

inductive Steps : Sys → Sys → Prop
  | refl {s : Sys} : Steps s s
  | tail {s t u : Sys} : Steps s t → Step t u → Steps s u

-- An instruction of a buffer, with the arguments which it takes.
inductive Instr
  | syscall (args : List UInt64)
  | jmp (target : UInt64)
  deriving DecidableEq, Repr

-- The instructions up to the first one which is incomplete or unknown.
def decode : List UInt64 → List Instr
  | []       => []
  | op :: ws =>
    if op = EXECBUF_SYSCALL then
      if ws.length < 6 then [] else .syscall (ws.take 6) :: decode (ws.drop 6)
    else if op = EXECBUF_JMP then
      if ws.length < 1 then [] else .jmp (ws.headD 0) :: decode ws.tail
    else
      []
termination_by ws => ws.length
decreasing_by
  · rw [List.length_drop, List.length_cons]
    omega
  · rw [List.length_tail, List.length_cons]
    omega

def Instr.encode : Instr → List UInt64
  | .syscall args => EXECBUF_SYSCALL :: args
  | .jmp target   => [EXECBUF_JMP, target]

def Instr.Complete : Instr → Prop
  | .syscall args => args.length = 6
  | .jmp _        => True

-- The process which does something by itself.
def Event.actor : Event → Option Pid
  | .accepted p _ | .syscall p _ | .jump p _ | .freed p | .resumed p _ => some p
  | .intr _ _ | .killed _                                             => none

def Event.proc : Event → Pid
  | .accepted p _ | .syscall p _ | .jump p _ | .freed p | .intr p _ | .killed p | .resumed p _ => p

-- What the process has performed.
def performed (p : Pid) (es : List Event) : List Instr :=
  es.filterMap fun
    | .syscall q args => if q = p then some (.syscall args) else none
    | .jump q target  => if q = p then some (.jmp target) else none
    | _               => none

-- Where the process goes on after all jumps and interrupts.
def ripAfter (p : Pid) (rip : UInt64) (es : List Event) : UInt64 :=
  es.foldl (fun rip e => match e with
    | .jump q target  => if q = p then target else rip
    | .intr q handler => if q = p then handler else rip
    | _               => rip) rip

-- Where it would go on if only jumps mattered.
def lastJump (rip : UInt64) (is : List Instr) : UInt64 :=
  is.foldl (fun rip i => match i with
    | .jmp target => target
    | .syscall _  => rip) rip

-- The instructions are those at the beginning of the words, and no other one follows.
structure Decodes (ws : List UInt64) (is : List Instr) : Prop where
  complete : ∀ i ∈ is, i.Complete
  split    : ∃ rest, ws = is.flatMap Instr.encode ++ rest ∧ ∀ i : Instr, i.Complete → ¬i.encode <+: rest

-- The process neither ends its buffer nor goes on in user mode.
def Busy (p : Pid) (es : List Event) : Prop :=
  .freed p ∉ es ∧ ∀ rip, .resumed p rip ∉ es

section Decode

variable {bytes : List UInt8} {ws : List UInt64} {is : List Instr} {target : UInt64} {n : ℕ}

@[simp]
theorem length_words : (words bytes).length = bytes.length / 8 := by
  simp [words]

theorem words_take : words (bytes.take (n * 8)) = (words bytes).take n := by
  refine List.ext_getElem ?_ fun i h _ => ?_
  case refine_1 =>
    simp only [length_words, List.length_take]
    omega
  case refine_2 =>
    simp only [length_words, List.length_take] at h
    simp only [words, List.getElem_map, List.getElem_range, List.getElem_take, List.drop_take, List.take_take]
    congr 2
    omega

theorem words_drop : words (bytes.drop (n * 8)) = (words bytes).drop n := by
  refine List.ext_getElem ?_ fun i h _ => ?_
  case refine_1 =>
    simp only [length_words, List.length_drop]
    omega
  case refine_2 =>
    simp only [words, List.getElem_map, List.getElem_range, List.getElem_drop, List.drop_drop, Nat.add_mul]

theorem decode_nil : decode [] = [] := by
  rw [decode]

theorem decode_syscall (h : 6 ≤ ws.length) :
    decode (EXECBUF_SYSCALL :: ws) = .syscall (ws.take 6) :: decode (ws.drop 6) := by
  rw [decode, if_pos rfl, if_neg (Nat.not_lt.mpr h)]

theorem decode_jmp (h : 1 ≤ ws.length) : decode (EXECBUF_JMP :: ws) = .jmp (ws.headD 0) :: decode ws.tail := by
  rw [decode, if_neg (by decide), if_pos rfl, if_neg (Nat.not_lt.mpr h)]

theorem decode_append (h : ∀ i ∈ is, i.Complete) : decode (is.flatMap Instr.encode ++ ws) = is ++ decode ws := by
  induction is
  case nil => rfl
  case cons i is hi =>
    have hc := h i List.mem_cons_self
    have hi := hi fun j hj => h j (List.mem_cons_of_mem _ hj)
    rw [List.flatMap_cons, List.append_assoc, List.cons_append, ← hi]
    cases i
    case syscall args =>
      have hc : args.length = 6 := hc
      rw [Instr.encode, List.cons_append, decode_syscall (by rw [List.length_append]; omega), ← hc, List.take_left,
        List.drop_left]
    case jmp target => exact decode_jmp (Nat.le_add_left _ _)

theorem exists_decode : ∃ rest, ws = (decode ws).flatMap Instr.encode ++ rest ∧ decode rest = [] := by
  induction ws using decode.induct
  case case1 => exact ⟨[], by rw [decode_nil]; rfl, decode_nil⟩
  case case2 ws h =>
    have hd : decode (EXECBUF_SYSCALL :: ws) = [] := by rw [decode, if_pos rfl, if_pos h]
    exact ⟨_, by rw [hd]; rfl, hd⟩
  case case3 ws h hi =>
    have ⟨rest, hr, hd⟩ := hi
    refine ⟨rest, ?_, hd⟩
    rw [decode_syscall (Nat.le_of_not_lt h), List.flatMap_cons, List.append_assoc, ← hr]
    simp [Instr.encode]
  case case4 ws h _ =>
    have hd : decode (EXECBUF_JMP :: ws) = [] := by rw [decode, if_neg (by decide), if_pos rfl, if_pos h]
    exact ⟨_, by rw [hd]; rfl, hd⟩
  case case5 ws h _ hi =>
    have ⟨rest, hr, hd⟩ := hi
    refine ⟨rest, ?_, hd⟩
    rw [decode_jmp (Nat.le_of_not_lt h), List.flatMap_cons, List.append_assoc, ← hr]
    cases ws
    case nil  => exact absurd Nat.zero_lt_one h
    case cons => rfl
  case case6 op ws h₁ h₂ =>
    have hd : decode (op :: ws) = [] := by rw [decode, if_neg h₁, if_neg h₂]
    exact ⟨_, by rw [hd]; rfl, hd⟩

theorem decode_complete {i : Instr} (h : i ∈ decode ws) : i.Complete := by
  induction ws using decode.induct
  case case1           => simp [decode_nil] at h
  case case2 ws hl     => simp [decode, hl] at h
  case case3 ws hl hi  =>
    rw [decode_syscall (Nat.le_of_not_lt hl)] at h
    obtain rfl | h := List.mem_cons.mp h
    · rw [Instr.Complete, List.length_take]
      omega
    · exact hi h
  case case4 ws hl hop => simp [decode, hl, hop] at h
  case case5 ws hl _ hi =>
    rw [decode_jmp (Nat.le_of_not_lt hl)] at h
    obtain rfl | h := List.mem_cons.mp h
    · trivial
    · exact hi h
  case case6 op ws h₁ h₂ => simp [decode, h₁, h₂] at h

theorem decode_decodes (ws : List UInt64) : Decodes ws (decode ws) := by
  obtain ⟨rest, hr, hd⟩ := @exists_decode ws
  refine ⟨fun _ => decode_complete, rest, hr, fun i hc hpre => ?_⟩
  obtain ⟨rest, rfl⟩ := hpre
  have := @decode_append rest [i] (by simpa using hc)
  simp [hd] at this

end Decode

-- The buffer is as long as the process believes.
structure Ready (v : Proc) (bytes : List UInt8) : Prop where
  buf : v.buf = some bytes
  len : v.len = bytes.length

-- A run jumps as far as there are only jumps, and then stops at a system call or at the end of the instructions.
inductive Ends (p : Pid) (v : Proc) (bytes : List UInt8) (is : List Instr) : Outcome → Prop
  | halted (js : List UInt64) (pos : ℕ) :
    is = js.map .jmp →
    Ends p v bytes is
      (.halted { v with rcx := js.getLastD v.rcx, pos := pos, buf := none } (js.map (.jump p) ++ [.freed p]))
  | called (js args : List UInt64) (pos : ℕ) :
    is = js.map .jmp ++ .syscall args :: decode (words (bytes.drop pos)) →
    Ends p v bytes is (.called args { v with rcx := js.getLastD v.rcx, pos := pos } (js.map (.jump p)))

section Run

variable {p : Pid} {v : Proc} {bytes : List UInt8} {ws : List UInt64} {is : List Instr} {amt pos : ℕ} {o : Outcome}

theorem Ready.advance (h : Ready v bytes) : Ready (v.advance amt) bytes :=
  ⟨h.buf, h.len⟩

theorem words_advance (hw : words (bytes.drop v.pos) = ws) : words (bytes.drop (v.advance amt).pos) = ws.drop amt := by
  rw [Proc.advance, ← List.drop_drop, words_drop, hw]

theorem tryFetch_eq (h : Ready v bytes) (hw : words (bytes.drop v.pos) = ws) (ha : 0 < amt) :
    tryFetch v amt = if ws.length < amt then .halt else .words (ws.take amt) (v.advance amt) := by
  have hl : ws.length = (bytes.length - v.pos) / 8 := by rw [← hw, length_words, List.length_drop]
  simp only [tryFetch, h.buf, h.len, Option.getD_some, words_take, hw]
  split_ifs <;> first | rfl | omega

theorem tryFetch_cons {op : UInt64} (h : Ready v bytes) (hw : words (bytes.drop v.pos) = op :: ws) :
    tryFetch v 1 = .words [op] (v.advance 1) := by
  rw [tryFetch_eq h hw Nat.one_pos, if_neg (by simp)]
  rfl

theorem Ends.jump {target : UInt64} (h : Ends p { v with pos := pos, rcx := target } bytes is o) :
    Ends p v bytes (.jmp target :: is) (o.after (.jump p target)) := by
  cases h
  case halted js pos hi =>
    have := @Ends.halted p v bytes _ (target :: js) pos (congrArg (.jmp target :: ·) hi)
    rwa [List.getLastD_cons] at this
  case called js args pos hi =>
    have := Ends.called (p := p) (v := v) (target :: js) args pos (congrArg (.jmp target :: ·) hi)
    rwa [List.getLastD_cons] at this

theorem execbufRun_ends (hs : v.state = .running) (h : Ready v bytes) (hw : words (bytes.drop v.pos) = ws) :
    Ends p v bytes (decode ws) (execbufRun p v) := by
  have hrun : ¬(v.state ≠ .running ∨ v.buf = none) := by simp [hs, h.buf]
  induction ws using decode.induct generalizing v
  case case1 =>
    rw [execbufRun, if_neg hrun, tryFetch_eq h hw Nat.one_pos]
    exact .halted [] _ decode_nil
  case case2 ws hlt =>
    have hd : decode (EXECBUF_SYSCALL :: ws) = [] := by rw [decode, if_pos rfl, if_pos hlt]
    rw [execbufRun, if_neg hrun, tryFetch_cons h hw, hd]
    simp only [List.headD_cons, if_true]
    rw [tryFetch_eq h.advance (words_advance hw) (by decide), List.drop_one, List.tail_cons, if_pos hlt]
    exact .halted [] _ rfl
  case case3 ws hlt _ =>
    have hw₁ : words (bytes.drop (v.advance 1).pos) = ws := words_advance hw
    rw [execbufRun, if_neg hrun, tryFetch_cons h hw, decode_syscall (Nat.le_of_not_lt hlt), ← words_advance hw₁]
    simp only [List.headD_cons, if_true]
    rw [tryFetch_eq h.advance hw₁ (by decide), if_neg hlt]
    exact .called [] _ _ rfl
  case case4 ws hlt hop =>
    have hd : decode (EXECBUF_JMP :: ws) = [] := by rw [decode, if_neg (by decide), if_pos rfl, if_pos hlt]
    rw [execbufRun, if_neg hrun, tryFetch_cons h hw, hd]
    simp only [List.headD_cons, hop, if_false, if_true]
    rw [tryFetch_eq h.advance (words_advance hw) (by decide), List.drop_one, List.tail_cons, if_pos hlt]
    exact .halted [] _ rfl
  case case5 ws hlt hop hi =>
    have hw₁ : words (bytes.drop (v.advance 1).pos) = ws := words_advance hw
    rw [execbufRun, if_neg hrun, tryFetch_cons h hw, decode_jmp (Nat.le_of_not_lt hlt)]
    simp only [List.headD_cons, hop, if_false, if_true]
    rw [tryFetch_eq h.advance hw₁ (by decide), if_neg hlt]
    have hj : (ws.take 1).headD 0 = ws.headD 0 := by cases ws <;> rfl
    simp only [hj]
    refine Ends.jump (hi hs ⟨h.buf, h.len⟩ ?_ hrun)
    exact (words_advance hw₁).trans List.drop_one
  case case6 op ws h₁ h₂ =>
    have hd : decode (op :: ws) = [] := by rw [decode, if_neg h₁, if_neg h₂]
    rw [execbufRun, if_neg hrun, tryFetch_cons h hw, hd]
    simp only [List.headD_cons, h₁, h₂, if_false]
    exact .halted [] _ rfl

end Run

-- The process does nothing by itself.
def Idle (p : Pid) (es : List Event) : Prop :=
  ∀ e ∈ es, e.actor ≠ some p

-- The buffer is left alone.
structure Keeps (v w : Proc) : Prop where
  buf    : w.buf = v.buf
  len    : w.len = v.len
  pos    : w.pos = v.pos
  active : w.state.active = v.state.active

-- A step which is none of the process, except that it may be redirected, wait, or be woken up.
structure Leaves (p : Pid) (s t : Sys) (es : List Event) : Prop where
  log  : t.log = s.log ++ es
  idle : Idle p es
  user : t.user = true → t.cur = p → s.user = true ∧ s.cur = p
  proc : ∀ v, s.procs.get p = some v → ∃ w, t.procs.get p = some w ∧ Keeps v w ∧ w.rcx = ripAfter p v.rcx es

-- The process has performed a part of its buffer, and the rest of it is left.
structure Executing (p : Pid) (bytes : List UInt8) (rip : UInt64) (es : List Event) (t : Sys) : Prop where
  busy   : Busy p es
  kernel : ¬(t.user = true ∧ t.cur = p)
  proc   : ∃ v, t.procs.get p = some v ∧ v.state.active ∧ Ready v bytes ∧ v.rcx = ripAfter p rip es ∧
    performed p es ++ decode (words (bytes.drop v.pos)) = decode (words bytes)

-- Nothing was performed and no buffer was freed.
def Quiet (p : Pid) (es : List Event) : Prop :=
  performed p es = [] ∧ .freed p ∉ es

-- The process has no buffer, or it has got another one.
def Unbuffered (p : Pid) (es : List Event) (t : Sys) : Prop :=
  (Quiet p es ∧ ∃ v, t.procs.get p = some v ∧ v.buf = none) ∨
    ∃ es₁ bytes es₂, es = es₁ ++ .accepted p bytes :: es₂ ∧ Quiet p es₁

-- The process has performed all of its buffer, freed it, and went on where the last jump or interrupt led. Nothing
-- is performed and no buffer is freed afterwards, unless it is that of another call.
structure Finished (p : Pid) (bytes : List UInt8) (rip : UInt64) (es : List Event) (t : Sys) : Prop where
  split : ∃ es₁ es₂, es = es₁ ++ [.freed p, .resumed p (ripAfter p rip es₁)] ++ es₂ ∧
    performed p es₁ = decode (words bytes) ∧ Busy p es₁ ∧ Unbuffered p es₂ t

-- The process has performed a part of its buffer, which was freed when it was killed.
structure Killed (p : Pid) (bytes : List UInt8) (es : List Event) (t : Sys) : Prop where
  split : ∃ es₁ es₂, es = es₁ ++ [.freed p, .killed p] ++ es₂ ∧
    performed p es₁ <+: decode (words bytes) ∧ Busy p es₁ ∧ Idle p es₂
  dead  : ∃ v, t.procs.get p = some v ∧ v.state.active = false ∧ v.buf = none

section Log

variable {p q : Pid} {s t u : Sys} {v w : Proc} {es es' : List Event} {rip : UInt64}

theorem performed_append : performed p (es ++ es') = performed p es ++ performed p es' :=
  List.filterMap_append

theorem ripAfter_append : ripAfter p rip (es ++ es') = ripAfter p (ripAfter p rip es) es' :=
  List.foldl_append

theorem Idle.performed (h : Idle p es) : performed p es = [] := by
  refine List.filterMap_eq_nil_iff.mpr fun e he => ?_
  have := h e he
  cases e <;> simp_all [Event.actor]

theorem Idle.busy (h : Idle p es) : Busy p es :=
  ⟨fun he => h _ he rfl, fun _ he => h _ he rfl⟩

theorem Idle.append (h : Idle p es) (h' : Idle p es') : Idle p (es ++ es') :=
  fun e he => (List.mem_append.mp he).elim (h e) (h' e)

theorem Busy.append (h : Busy p es) (h' : Busy p es') : Busy p (es ++ es') :=
  ⟨fun he => (List.mem_append.mp he).elim h.left h'.left,
    fun rip he => (List.mem_append.mp he).elim (h.right rip) (h'.right rip)⟩

theorem idle_of_ne (h : ∀ e ∈ es, e.proc = q) (hq : q ≠ p) : Idle p es := by
  intro e he ha
  have := h e he
  cases e <;> simp_all [Event.actor, Event.proc]

theorem ripAfter_of_ne (h : ∀ e ∈ es, e.proc = q) (hq : q ≠ p) : ripAfter p rip es = rip := by
  induction es generalizing rip
  case nil => rfl
  case cons e es hi =>
    have he := h e List.mem_cons_self
    rw [ripAfter, List.foldl_cons]
    refine (hi fun e he => h e (List.mem_cons_of_mem _ he)).trans ?_
    cases e <;> simp_all [Event.proc]

-- A step in which one process is replaced, and the processor may switch to it.
structure Alters (q : Pid) (s t : Sys) (w : Proc) (es : List Event) : Prop where
  procs : t.procs = s.procs.set q w
  log   : t.log = s.log ++ es
  proc  : ∀ e ∈ es, e.proc = q
  user  : t.user = true → t.cur = q ∨ s.user = true ∧ t.cur = s.cur

theorem Alters.leaves (h : Alters q s t w es) (hq : q ≠ p) : Leaves p s t es where
  log  := h.log
  idle := idle_of_ne h.proc hq
  user := by
    intro hu hc
    obtain rfl | ⟨hs, ht⟩ := h.user hu
    · exact absurd hc hq
    · exact ⟨hs, ht.symm.trans hc⟩
  proc := by
    intro v hv
    refine ⟨v, ?_, ⟨rfl, rfl, rfl, rfl⟩, (ripAfter_of_ne h.proc hq).symm⟩
    rw [h.procs, Heap.get_set_ne hq.symm, hv]

theorem Alters.get (h : Alters q s t w es) (hv : s.procs.get q = some v) : t.procs.get q = some w := by
  rw [h.procs, Heap.get_set_self hv]

theorem alters_update (h : ∀ e ∈ es, e.proc = q) : Alters q s (s.update q w es) w es :=
  ⟨rfl, rfl, h, fun hu => .inr ⟨hu, rfl⟩⟩

theorem alters_self (h : s.procs.get q = some v) : Alters q s s v [] :=
  ⟨(Heap.set_get h).symm, (List.append_nil _).symm, by simp, fun hu => .inr ⟨hu, rfl⟩⟩

theorem sysExecbuf_alters {len : ℕ} {copied : List UInt8} (h : s.procs.get q = some v) :
    ∃ w es, Alters q s (sysExecbuf q len copied s) w es := by
  simp only [sysExecbuf, h]
  split_ifs <;> exact ⟨_, _, alters_update (by simp [Event.proc])⟩

theorem syscall_alters (args : List UInt64) (copied : List UInt8) (h : s.procs.get q = some v) :
    ∃ w es, Alters q s (syscall q args copied s) w es := by
  rw [syscall]
  split
  · exact sysExecbuf_alters h
  · exact ⟨v, [], alters_self h⟩

theorem procKill_alters (h : s.procs.get q = some v) : ∃ w es, Alters q s (procKill q s) w es := by
  simp only [procKill, h]
  split
  · refine ⟨_, _, alters_update fun e he => ?_⟩
    simp only [List.mem_append, List.mem_ite_nil_right, List.mem_singleton] at he
    obtain ⟨_, rfl⟩ | rfl := he <;> rfl
  · exact ⟨v, [], alters_self h⟩

theorem Alters.trans (h : Alters q s t v es) (h' : Alters q t u w es') : Alters q s u w (es ++ es') where
  procs := by rw [h'.procs, h.procs, Heap.set_set]
  log   := by rw [h'.log, h.log, List.append_assoc]
  proc  := fun e he => (List.mem_append.mp he).elim (h.proc e) (h'.proc e)
  user  := by
    intro hu
    obtain hc | ⟨ht, hc⟩ := h'.user hu
    · exact .inl hc
    · exact hc ▸ h.user ht

-- The events of an outcome belong to the process.
def Outcome.Of (p : Pid) : Outcome → Prop
  | .fault         => True
  | .halted _ es   => ∀ e ∈ es, e.proc = p
  | .called _ _ es => ∀ e ∈ es, e.proc = p

theorem Outcome.Of.after {o : Outcome} {e : Event} (h : o.Of p) (he : e.proc = p) : (o.after e).Of p := by
  cases o
  case fault  => trivial
  case halted => exact List.forall_mem_cons.mpr ⟨he, h⟩
  case called => exact List.forall_mem_cons.mpr ⟨he, h⟩

theorem execbufRun_of : (execbufRun p v).Of p := by
  have hh (v : Proc) : (halt p v).Of p := fun e he => List.mem_singleton.mp he ▸ rfl
  fun_induction execbufRun p v
  case case9 hi => exact hi.after rfl
  all_goals first | trivial | exact hh _ | exact fun e he => absurd he List.not_mem_nil

theorem procSwitchTo_alters {copied : List UInt8} (h : s.procs.get q = some v) (ht : procSwitchTo q copied s = some t) :
    ∃ w es, Alters q s t w es := by
  have ho := execbufRun_of (p := q) (v := v)
  simp only [procSwitchTo, h] at ht
  split at ht
  case isTrue =>
    cases ht
    exact ⟨v, [.resumed q v.rcx], (Heap.set_get h).symm, rfl, by simp [Event.proc], fun _ => .inl rfl⟩
  case isFalse =>
    generalize execbufRun q v = o at ht ho
    cases o
    case fault => contradiction
    case halted w es =>
      cases ht
      refine ⟨w, es ++ [.resumed q w.rcx], rfl, rfl, fun e he => ?_, fun _ => .inl rfl⟩
      exact (List.mem_append.mp he).elim (ho e) fun he => List.mem_singleton.mp he ▸ rfl
    case called args w es =>
      have hw : Alters q s { s.update q w (es ++ [.syscall q args]) with cur := q } w (es ++ [.syscall q args]) := by
        refine ⟨rfl, rfl, fun e he => ?_, fun _ => .inl rfl⟩
        exact (List.mem_append.mp he).elim (ho e) fun he => List.mem_singleton.mp he ▸ rfl
      obtain rfl := Option.some.inj ht
      have ⟨w', es', hs⟩ := syscall_alters args copied (hw.get h)
      exact ⟨w', _, hw.trans hs⟩

theorem modify_eq {f : Proc → Proc} (h : s.procs.get q = some v) : s.modify q f = s.update q (f v) [] := by
  simp only [Sys.modify, h]

theorem leaves_update (h : s.procs.get p = some v) (hi : Idle p es) (hw : Keeps v w)
    (hr : w.rcx = ripAfter p v.rcx es) : Leaves p s (s.update p w es) es where
  log  := rfl
  idle := hi
  user := fun hu hc => ⟨hu, hc⟩
  proc := by
    intro v' hv'
    obtain rfl := Option.some.inj (h.symm.trans hv')
    exact ⟨w, Heap.get_set_self h, hw, hr⟩

theorem leaves_self : Leaves p s s [] where
  log  := (List.append_nil _).symm
  idle := by simp [Idle]
  user := fun hu hc => ⟨hu, hc⟩
  proc := fun v hv => ⟨v, hv, ⟨rfl, rfl, rfl, rfl⟩, rfl⟩

theorem leaves_modify {f : Proc → Proc} (h : s.procs.get q = some v) (hf : Keeps v (f v)) (hr : (f v).rcx = v.rcx) :
    Leaves p s (s.modify q f) [] := by
  rw [modify_eq h]
  by_cases hq : q = p
  case neg => exact (alters_update (by simp)).leaves hq
  case pos =>
    subst hq
    exact leaves_update h (by simp [Idle]) hf hr

theorem active_of_waits {state : PState} (h : waits state) : state.active = true := by
  cases state <;> first | rfl | contradiction

theorem procIntr_leaves (h : s.procs.get q = some v) : ∃ es, Leaves p s (procIntr q s) es := by
  simp only [procIntr, h]
  split
  case isTrue => exact ⟨[], leaves_self⟩
  case isFalse =>
    refine ⟨[.intr q v.intrFn], ?_⟩
    by_cases hq : q = p
    case neg => exact (alters_update (by simp [Event.proc])).leaves hq
    case pos =>
      subst hq
      refine leaves_update h (by simp [Idle, Event.actor]) ⟨rfl, rfl, rfl, ?_⟩ (by simp [ripAfter])
      split
      case isTrue hs => rw [hs]; rfl
      case isFalse   => rfl

theorem procFork_leaves (h : s.procs.get q = some v) : Leaves p s (procFork q s) [] := by
  simp only [procFork, h]
  exact ⟨(List.append_nil _).symm, by simp [Idle], fun hu hc => ⟨hu, hc⟩,
    fun w hw => ⟨w, Heap.get_alloc_of_some hw, ⟨rfl, rfl, rfl, rfl⟩, rfl⟩⟩

-- No act but the kill of the process itself touches its buffer.
theorem act_leaves {a : Act} (h : s.procs.get a.proc = some v) (ha : a.Allowed v) (hk : a ≠ .kill p) :
    ∃ es, Leaves p s (a.run s) es := by
  cases a
  case block q state =>
    refine ⟨[], leaves_modify h ⟨rfl, rfl, rfl, ?_⟩ rfl⟩
    rw [ha.left]
    exact active_of_waits ha.right
  case wake q        => exact ⟨[], leaves_modify h ⟨rfl, rfl, rfl, (active_of_waits ha).symm⟩ rfl⟩
  case ret q rax     => exact ⟨[], leaves_modify h ⟨rfl, rfl, rfl, rfl⟩ rfl⟩
  case kill q =>
    have ⟨w, es, hw⟩ := procKill_alters h
    exact ⟨es, hw.leaves fun he => hk (congrArg _ he)⟩
  case intr q        => exact procIntr_leaves h
  case intrSet q fn  => exact ⟨[], leaves_modify h ⟨rfl, rfl, rfl, rfl⟩ rfl⟩
  case fork q        => exact ⟨[], procFork_leaves h⟩

-- What a step can do to a process.
inductive Effect (p : Pid) (s t : Sys) : Prop
  | leaves (es : List Event) : Leaves p s t es → Effect p s t
  | kill (v : Proc) :
    s.procs.get p = some v → t.procs = (procKill p s).procs → t.log = (procKill p s).log → Effect p s t
  | enter (v : Proc) (rcx : UInt64) (args : List UInt64) (copied : List UInt8) :
    s.procs.get p = some v → v.state = .running → s.user = true → s.cur = p →
    t = syscall p args copied { s.update p { v with rcx := rcx } [] with user := false } → Effect p s t
  | switch (v : Proc) (copied : List UInt8) :
    s.procs.get p = some v → v.state = .running → s.user = false → procSwitchTo p copied s = some t → Effect p s t

theorem Leaves.kernel (h : Leaves p s t es) : Leaves p s { t with user := false } es :=
  ⟨h.log, h.idle, by simp, h.proc⟩

theorem Step.effect (h : Step s t) : Effect p s t := by
  cases h
  case act v a hv ha =>
    by_cases hk : a = .kill p
    case neg =>
      have ⟨es, hl⟩ := act_leaves hv ha hk
      exact .leaves es hl
    case pos =>
      subst hk
      exact .kill v hv rfl rfl
  case enter v rcx args copied hu hv hr =>
    have hs : Alters s.cur s { s.update s.cur { v with rcx := rcx } [] with user := false } { v with rcx := rcx } [] :=
      ⟨rfl, rfl, by simp, by simp⟩
    have ⟨w, es, hw⟩ := syscall_alters args copied (hs.get hv)
    by_cases hp : s.cur = p
    case neg => exact .leaves _ ((hs.trans hw).leaves hp)
    case pos => exact .enter v rcx args copied (hp ▸ hv) hr hu hp (hp ▸ rfl)
  case trap v hu hv =>
    have ⟨w, es, hw⟩ := procKill_alters hv
    by_cases hp : s.cur = p
    case neg => exact .leaves es (hw.leaves hp).kernel
    case pos => exact .kill v (hp ▸ hv) (hp ▸ rfl) (hp ▸ rfl)
  case switch v q copied hu hv hr _ ht =>
    have ⟨w, es, hw⟩ := procSwitchTo_alters hv ht
    by_cases hp : q = p
    case neg => exact .leaves es (hw.leaves hp)
    case pos => exact .switch v copied (hp ▸ hv) hr hu (hp ▸ ht)

theorem Step.log (h : Step s t) : ∃ es, t.log = s.log ++ es := by
  obtain ⟨es, hl⟩ | ⟨v, hv, -, hl⟩ | ⟨v, rcx, args, copied, hv, -, -, -, rfl⟩ | ⟨v, copied, hv, -, -, ht⟩ :=
    h.effect (p := s.cur)
  case leaves => exact ⟨es, hl.log⟩
  case kill =>
    have ⟨_, es, hw⟩ := procKill_alters hv
    exact ⟨es, hl.trans hw.log⟩
  case enter  =>
    have ⟨_, es, hw⟩ := @syscall_alters s.cur { s.update s.cur { v with rcx := rcx } [] with user := false }
      { v with rcx := rcx } args copied (Heap.get_set_self hv)
    exact ⟨es, hw.log.trans (by simp [Sys.update])⟩
  case switch =>
    have ⟨_, es, hw⟩ := procSwitchTo_alters hv ht
    exact ⟨es, hw.log⟩

end Log

section Session

variable {p : Pid} {s t : Sys} {v : Proc} {bytes copied : List UInt8} {rip : UInt64} {es new : List Event} {len : ℕ}

theorem Executing.leaves (h : Executing p bytes rip es s) (hl : Leaves p s t new) :
    Executing p bytes rip (es ++ new) t where
  busy   := h.busy.append hl.idle.busy
  kernel := fun ⟨hu, hc⟩ => h.kernel (hl.user hu hc)
  proc   := by
    have ⟨v, hv, ha, hr, hrip, hd⟩ := h.proc
    have ⟨w, hw, hk, hrcx⟩ := hl.proc v hv
    refine ⟨w, hw, hk.active.trans ha, ⟨hk.buf.trans hr.buf, hk.len.trans hr.len⟩, ?_, ?_⟩
    · rw [hrcx, hrip, ripAfter_append]
    · rwa [performed_append, hl.idle.performed, List.append_nil, hk.pos]

theorem Executing.kill (h : Executing p bytes rip es s) (hp : t.procs = (procKill p s).procs) :
    (procKill p s).log = s.log ++ [.freed p, .killed p] ∧ Killed p bytes (es ++ [.freed p, .killed p]) t := by
  have ⟨v, hv, ha, hr, _, hd⟩ := h.proc
  have hal : v.state.alive = true := by
    revert ha
    cases v.state <;> decide
  simp only [procKill, hv, hal, if_true, hr.buf, Option.isSome_some] at hp ⊢
  refine ⟨rfl, ⟨es, [], (List.append_nil _).symm, ⟨_, hd⟩, h.busy, by simp [Idle]⟩, ?_⟩
  refine ⟨{ v with state := .tombstone, buf := none }, ?_, rfl, rfl⟩
  rw [hp]
  exact Heap.get_set_self hv

theorem performed_jumps {js : List UInt64} : performed p (js.map (.jump p)) = js.map .jmp := by
  induction js
  case nil => rfl
  case cons j js hi => rw [List.map_cons, List.map_cons, ← hi]; simp [performed]

theorem ripAfter_jumps {js : List UInt64} : ripAfter p rip (js.map (.jump p)) = js.getLastD rip := by
  induction js generalizing rip
  case nil => rfl
  case cons j js hi =>
    rw [List.getLastD_cons, ← hi]
    simp [ripAfter]

theorem busy_jumps {js : List UInt64} : Busy p (js.map (.jump p)) := by
  simp [Busy]

-- A process cannot get another buffer while it has one.
theorem syscall_nested {args : List UInt64} (hv : s.procs.get p = some v) (hb : v.buf.isSome) :
    Leaves p s (syscall p args copied s) [] := by
  rw [syscall]
  split
  case isFalse => exact leaves_self
  case isTrue =>
    simp only [sysExecbuf, hv, hb, if_true]
    split_ifs <;> exact leaves_update hv (by simp [Idle]) ⟨rfl, rfl, rfl, rfl⟩ rfl

-- The events of a run up to a system call.
def callEvents (p : Pid) (js args : List UInt64) : List Event :=
  js.map (.jump p) ++ [.syscall p args]

theorem performed_callEvents {js args : List UInt64} :
    performed p (callEvents p js args) = js.map .jmp ++ [.syscall args] := by
  rw [callEvents, performed_append, performed_jumps]
  simp [performed]

theorem Executing.calls {js args : List UInt64} {pos : ℕ} (h : Executing p bytes rip es s)
    (hv : s.procs.get p = some v) (hi : decode (words (bytes.drop v.pos)) =
      js.map .jmp ++ .syscall args :: decode (words (bytes.drop pos))) (hu : s.user = false) :
    Executing p bytes rip (es ++ callEvents p js args)
      { s.update p { v with rcx := js.getLastD v.rcx, pos := pos } (callEvents p js args) with cur := p } := by
  have ⟨v', hv', ha, hr, hrip, hd⟩ := h.proc
  obtain rfl := Option.some.inj (hv.symm.trans hv')
  refine ⟨h.busy.append (busy_jumps.append (by simp [Busy])), fun ⟨ht, _⟩ => absurd (hu.symm.trans ht) (by decide), _,
    Heap.get_set_self hv, ha, ⟨hr.buf, hr.len⟩, ?_, ?_⟩
  · rw [ripAfter_append, ← hrip, callEvents, ripAfter_append, ripAfter_jumps]
    rfl
  · rw [performed_append, performed_callEvents, ← hd, hi]
    simp

-- What the process does once it is chosen: it jumps, and then makes a system call or goes on in user mode.
theorem Executing.switch (h : Executing p bytes rip es s) (hv : s.procs.get p = some v) (hs : v.state = .running)
    (copied : List UInt8) : ∃ t new, procSwitchTo p copied s = some t ∧ t.log = s.log ++ new ∧
      (performed p new ≠ [] ∧ (s.user = false → Executing p bytes rip (es ++ new) t) ∨
        Finished p bytes rip (es ++ new) t) := by
  have ⟨v', hv', ha, hr, hrip, hd⟩ := h.proc
  obtain rfl := Option.some.inj (hv.symm.trans hv')
  have he := execbufRun_ends (p := p) hs hr rfl
  have hn : v.buf ≠ none := by simp [hr.buf]
  simp only [procSwitchTo, hv, if_neg hn]
  generalize execbufRun p v = o at he
  cases he
  case halted js pos hi =>
    have hnone : Unbuffered p [] { s.update p { v with rcx := js.getLastD v.rcx, pos := pos, buf := none } [] with
        cur := p, user := true } := .inl ⟨⟨rfl, List.not_mem_nil⟩, _, Heap.get_set_self hv, rfl⟩
    refine ⟨_, _, rfl, rfl, .inr ⟨es ++ js.map (.jump p), [], ?_, ?_, h.busy.append busy_jumps, hnone⟩⟩
    · rw [ripAfter_append, ← hrip, ripAfter_jumps]
      simp
    · rw [performed_append, performed_jumps, ← hi, hd]
  case called js args pos hi =>
    let w : Proc := { v with rcx := js.getLastD v.rcx, pos := pos }
    have hw : (s.procs.set p w).get p = some w := Heap.get_set_self hv
    have hl := @syscall_nested p { s.update p w (callEvents p js args) with cur := p } w copied args hw (by simp [w, hr.buf])
    refine ⟨_, callEvents p js args, rfl, ?_, .inl ⟨by simp [performed_callEvents], fun hu => ?_⟩⟩
    · exact hl.log.trans (List.append_nil _)
    · have hx := (h.calls hv hi hu).leaves hl
      rwa [List.append_nil] at hx

theorem Idle.quiet (h : Idle p es) : Quiet p es :=
  ⟨h.performed, h.busy.left⟩

theorem Quiet.append (h : Quiet p es) (h' : Quiet p new) : Quiet p (es ++ new) :=
  ⟨by rw [performed_append, h.left, h'.left, List.append_nil],
    fun he => (List.mem_append.mp he).elim h.right h'.right⟩

-- A process without a buffer gets one, or it stays without.
theorem syscall_unbuffered {args : List UInt64} (hv : s.procs.get p = some v) (hb : v.buf = none) :
    ∃ new, (syscall p args copied s).log = s.log ++ new ∧ Unbuffered p new (syscall p args copied s) := by
  have hquiet : Quiet p [] := ⟨rfl, List.not_mem_nil⟩
  have hself : ∃ new, s.log = s.log ++ new ∧ Unbuffered p new s :=
    ⟨[], (List.append_nil _).symm, .inl ⟨hquiet, v, hv, hb⟩⟩
  have hret {rax : Int} : ∃ new, (s.update p { v with rax := rax } []).log = s.log ++ new ∧
      Unbuffered p new (s.update p { v with rax := rax } []) :=
    ⟨[], rfl, .inl ⟨hquiet, _, Heap.get_set_self hv, hb⟩⟩
  rw [syscall]
  split
  case isFalse => exact hself
  case isTrue =>
    simp only [sysExecbuf, hv]
    split_ifs
    case neg => exact ⟨_, rfl, .inr ⟨[], _, [], rfl, hquiet⟩⟩
    all_goals exact hret

theorem Unbuffered.step (h : Unbuffered p es s) (hs : Step s t) :
    ∃ new, t.log = s.log ++ new ∧ Unbuffered p (es ++ new) t := by
  obtain ⟨hq, v, hv, hb⟩ | ⟨es₁, bytes, es₂, rfl, hq⟩ := h
  case inr =>
    have ⟨new, hl⟩ := hs.log
    exact ⟨new, hl, .inr ⟨es₁, bytes, es₂ ++ new, by simp, hq⟩⟩
  -- What happens now comes behind what was quiet.
  have happend {new : List Event} (h : Unbuffered p new t) : Unbuffered p (es ++ new) t := by
    obtain ⟨hq', hx⟩ | ⟨es₁, bytes, es₂, rfl, hq'⟩ := h
    · exact .inl ⟨hq.append hq', hx⟩
    · exact .inr ⟨es ++ es₁, bytes, es₂, by simp, hq.append hq'⟩
  suffices h : ∃ new, t.log = s.log ++ new ∧ Unbuffered p new t from h.imp fun _ h => ⟨h.left, happend h.right⟩
  obtain ⟨new, hl⟩ | ⟨_, -, hp, hl⟩ | ⟨w, rcx, args, copied, hw, -, -, -, rfl⟩ | ⟨w, _, hw, -, -, ht⟩ := hs.effect (p := p)
  case leaves =>
    have ⟨w, hw, hk, _⟩ := hl.proc v hv
    exact ⟨new, hl.log, .inl ⟨hl.idle.quiet, w, hw, hk.buf.trans hb⟩⟩
  case kill =>
    simp only [procKill, hv, hb] at hp hl
    split at hp
    case isTrue hal =>
      rw [if_pos hal] at hl
      refine ⟨[.killed p], hl, .inl ⟨⟨rfl, by simp⟩, { v with state := .tombstone, buf := none }, ?_, rfl⟩⟩
      rw [hp]
      exact Heap.get_set_self hv
    case isFalse hal =>
      rw [if_neg hal] at hl
      exact ⟨[], hl.trans (List.append_nil _).symm, .inl ⟨⟨rfl, List.not_mem_nil⟩, v, by rw [hp, hv], hb⟩⟩
  case enter =>
    obtain rfl := Option.some.inj (hv.symm.trans hw)
    have ⟨new, hl, hx⟩ := @syscall_unbuffered p { s.update p { v with rcx := rcx } [] with user := false }
      { v with rcx := rcx } copied args (Heap.get_set_self hv) hb
    exact ⟨new, hl.trans (by simp [Sys.update]), hx⟩
  case switch =>
    simp only [procSwitchTo, hv, hb, if_true, Option.some_inj] at ht
    subst ht
    exact ⟨[.resumed p v.rcx], rfl, .inl ⟨⟨rfl, by simp⟩, v, hv, hb⟩⟩

theorem Finished.step (h : Finished p bytes rip es s) (hs : Step s t) :
    ∃ new, t.log = s.log ++ new ∧ Finished p bytes rip (es ++ new) t := by
  have ⟨es₁, es₂, he, hd, hb, hu⟩ := h.split
  have ⟨new, hl, hu⟩ := hu.step hs
  exact ⟨new, hl, es₁, es₂ ++ new, by rw [he, List.append_assoc], hd, hb, hu⟩

theorem Killed.append (h : Killed p bytes es s) (hi : Idle p new)
    (hd : ∃ v, t.procs.get p = some v ∧ v.state.active = false ∧ v.buf = none) : Killed p bytes (es ++ new) t := by
  have ⟨es₁, es₂, he, hp, hb, hi₂⟩ := h.split
  exact ⟨⟨es₁, es₂ ++ new, by rw [he, List.append_assoc], hp, hb, hi₂.append hi⟩, hd⟩

theorem Killed.step (h : Killed p bytes es s) (hs : Step s t) :
    ∃ new, t.log = s.log ++ new ∧ Killed p bytes (es ++ new) t := by
  have ⟨v, hv, ha, hb⟩ := h.dead
  have hrun {w : Proc} (hw : s.procs.get p = some w) (hr : w.state = .running) : False := by
    obtain rfl := Option.some.inj (hv.symm.trans hw)
    rw [hr] at ha
    contradiction
  obtain ⟨new, hl⟩ | ⟨_, -, hp, hl⟩ | ⟨w, _, _, _, hw, hr, -⟩ | ⟨w, _, hw, hr, -⟩ := hs.effect (p := p)
  case leaves =>
    have ⟨w, hw, hk, _⟩ := hl.proc v hv
    exact ⟨new, hl.log, h.append hl.idle ⟨w, hw, hk.active.trans ha, hk.buf.trans hb⟩⟩
  case kill =>
    simp only [procKill, hv, hb] at hp hl
    split at hp
    case isTrue hal =>
      rw [if_pos hal] at hl
      have hi : Idle p [.killed p] := by simp [Idle, Event.actor]
      refine ⟨[.killed p], hl, h.append hi ⟨{ v with state := .tombstone, buf := none }, ?_, rfl, rfl⟩⟩
      rw [hp]
      exact Heap.get_set_self hv
    case isFalse hal =>
      rw [if_neg hal] at hl
      exact ⟨[], hl.trans (List.append_nil _).symm, h.append (by simp [Idle]) ⟨v, by rw [hp, hv], ha, hb⟩⟩
  case enter  => exact (hrun hw hr).elim
  case switch => exact (hrun hw hr).elim

-- A process with a buffer is still about it, or it has performed all of it, or it was killed.
inductive Session (p : Pid) (bytes : List UInt8) (rip : UInt64) (es : List Event) (t : Sys) : Prop
  | executing : Executing p bytes rip es t → Session p bytes rip es t
  | finished : Finished p bytes rip es t → Session p bytes rip es t
  | killed : Killed p bytes es t → Session p bytes rip es t

theorem Session.step (h : Session p bytes rip es s) (hs : Step s t) :
    ∃ new, t.log = s.log ++ new ∧ Session p bytes rip (es ++ new) t := by
  cases h
  case executing h =>
    obtain ⟨new, hl⟩ | ⟨_, -, hp, hl⟩ | ⟨_, _, _, _, -, -, hu, hc, -⟩ | ⟨v, copied, hv, hr, hu, ht⟩ := hs.effect (p := p)
    case leaves => exact ⟨new, hl.log, .executing (h.leaves hl)⟩
    case kill   => exact ⟨_, hl.trans (h.kill hp).left, .killed (h.kill hp).right⟩
    case enter  => exact (h.kernel ⟨hu, hc⟩).elim
    case switch =>
      have ⟨t', new, ht', hl, hx⟩ := h.switch hv hr copied
      obtain rfl := Option.some.inj (ht'.symm.trans ht)
      refine ⟨new, hl, ?_⟩
      obtain ⟨-, hx⟩ | hx := hx
      · exact .executing (hx hu)
      · exact .finished hx
  case finished h =>
    have ⟨new, hl, hf⟩ := h.step hs
    exact ⟨new, hl, .finished hf⟩
  case killed h =>
    have ⟨new, hl, hk⟩ := h.step hs
    exact ⟨new, hl, .killed hk⟩

theorem Session.steps (h : Session p bytes rip [] s) (ht : Steps s t) :
    ∃ es, t.log = s.log ++ es ∧ Session p bytes rip es t := by
  induction ht
  case refl => exact ⟨[], (List.append_nil _).symm, h⟩
  case tail hs hi =>
    have ⟨es, hl, hx⟩ := hi
    have ⟨new, hn, hx⟩ := hx.step hs
    exact ⟨es ++ new, by rw [hn, hl, List.append_assoc], hx⟩

-- `_sys_execbuf` accepts a buffer which is not empty, not too long and which could be copied, unless there is one.
theorem sysExecbuf_accepts (hv : s.procs.get p = some v) (hb : v.buf = none) (hl : 0 < copied.length)
    (hm : copied.length ≤ EXECBUF_MAX_LEN) : sysExecbuf p copied.length copied s =
      s.update p { v with rax := 0, buf := some copied, len := copied.length, pos := 0 } [.accepted p copied] := by
  simp [sysExecbuf, hv, hb, Nat.ne_of_gt hl, Nat.not_lt.mpr hm]

-- An accepted buffer is performed as it is decoded.
theorem execbuf_session (hu : s.user = false) (hv : s.procs.get p = some v) (hr : v.state = .running)
    (hb : v.buf = none) (hl : 0 < bytes.length) (hm : bytes.length ≤ EXECBUF_MAX_LEN)
    (ht : Steps (sysExecbuf p bytes.length bytes s) t) :
    Decodes (words bytes) (decode (words bytes)) ∧
    ∃ es, t.log = s.log ++ .accepted p bytes :: es ∧ Session p bytes v.rcx es t ∧
      -- It does not fail, and whenever it is chosen it performs something or is at the end.
      ∀ w copied, Executing p bytes v.rcx es t → t.procs.get p = some w → w.state = .running →
        ∃ u new, procSwitchTo p copied t = some u ∧ u.log = t.log ++ new ∧
          (performed p new ≠ [] ∨ Finished p bytes v.rcx (es ++ new) u) := by
  refine ⟨decode_decodes _, ?_⟩
  rw [sysExecbuf_accepts hv hb hl hm] at ht
  have hx : Executing p bytes v.rcx []
      (s.update p { v with rax := 0, buf := some bytes, len := bytes.length, pos := 0 } [.accepted p bytes]) := by
    refine ⟨by simp [Busy], fun ⟨ht, _⟩ => absurd (hu.symm.trans ht) (by decide), _, Heap.get_set_self hv, ?_,
      ⟨rfl, rfl⟩, rfl, rfl⟩
    rw [hr]
    rfl
  have ⟨es, he, hx⟩ := Session.steps (.executing hx) ht
  refine ⟨es, he.trans (List.append_assoc _ _ _), hx, fun w copied hx hw hr => ?_⟩
  have ⟨u, new, hsw, hlog, hf⟩ := hx.switch hw hr copied
  exact ⟨u, new, hsw, hlog, hf.imp And.left id⟩

end Session

section Redirected

-- `EXECBUF_JMP` to 0x1000, and then `_sys_sleep`.
def napBytes : List UInt8 :=
  [EXECBUF_JMP, 0x1000, EXECBUF_SYSCALL, 15, 100, 0, 0, 0, 0].flatMap fun w =>
    (List.range 8).map fun i => .ofNat (w.toNat / 256 ^ i)

-- A process which has called `_sys_execbuf`, and its parent.
def napSys (parent child : Proc) (cur : Pid) (user : Bool) (log : List Event) : Sys :=
  ⟨⟨[some parent, some child]⟩, cur, user, log⟩

def napStart : Sys :=
  napSys { state := .running, rcx := 0x400 } { state := .running, rcx := 0x500, intrFn := 0x2000 } 1 false []

def napAsleep : Sys :=
  napSys { state := .running, rcx := 0x400 } ⟨.waits4timer, 0x1000, 0, 0x2000, some napBytes, 72, 72⟩ 1 false
    [.accepted 1 napBytes, .jump 1 0x1000, .syscall 1 [15, 100, 0, 0, 0, 0]]

def napWoken : Sys :=
  napSys ⟨.waits4timer, 0x420, 0, 0, none, 0, 0⟩ ⟨.running, 0x2000, 0, 0x2000, some napBytes, 72, 72⟩ 0 false
    (napAsleep.log ++ [.resumed 0 0x400, .intr 1 0x2000, .resumed 0 0x410])

def napDone : Sys :=
  napSys ⟨.waits4timer, 0x420, 0, 0, none, 0, 0⟩ ⟨.running, 0x2000, 0, 0x2000, none, 72, 72⟩ 1 true
    (napWoken.log ++ [.freed 1, .resumed 1 0x2000])

theorem napAsleep_steps : Steps (sysExecbuf 1 72 napBytes napStart) napAsleep := by
  have hs : procSwitchTo 1 [] (sysExecbuf 1 72 napBytes napStart) = some (napSys { state := .running, rcx := 0x400 }
      ⟨.running, 0x1000, 0, 0x2000, some napBytes, 72, 72⟩ 1 false napAsleep.log) := by
    decide +kernel
  have h := Steps.tail .refl (.switch 1 [] rfl rfl rfl (fun _ _ _ => rfl) hs)
  exact h.tail (.act (.block 1 .waits4timer) rfl ⟨rfl, rfl⟩)

-- While the process sleeps, its parent interrupts it, and then sleeps itself.
theorem napWoken_steps : Steps (sysExecbuf 1 72 napBytes napStart) napWoken := by
  have h₁ := napAsleep_steps.tail (.switch 0 [] rfl rfl rfl (by rintro _ ⟨⟩ ⟨⟩) rfl)
  have h₂ := h₁.tail (.enter 0x410 [17, 0, 0, 0, 0, 0] [] rfl rfl rfl)
  have h₃ := h₂.tail (.act (.intr 1) rfl trivial)
  have h₄ := h₃.tail (.switch 0 [] rfl rfl rfl (by rintro _ ⟨⟩ _; rfl) rfl)
  have h₅ := h₄.tail (.enter 0x420 [15, 100, 0, 0, 0, 0] [] rfl rfl rfl)
  exact h₅.tail (.act (.block 0 .waits4timer) rfl ⟨rfl, rfl⟩)

theorem napDone_steps : Steps (sysExecbuf 1 72 napBytes napStart) napDone := by
  have hs : procSwitchTo 1 [] napWoken = some napDone := by decide +kernel
  exact napWoken_steps.tail (.switch 1 [] rfl rfl rfl (by rintro _ ⟨⟩ ⟨⟩) hs)

theorem execbuf_session_nap :
    ∃ es, napDone.log = napStart.log ++ .accepted 1 napBytes :: es ∧ Session 1 napBytes 0x500 es napDone := by
  have ⟨_, es, hl, hs, _⟩ :=
    @execbuf_session 1 napStart napDone _ napBytes rfl rfl rfl rfl (by decide) (by decide) napDone_steps
  exact ⟨es, hl, hs⟩

-- The process goes on in its handler, and not at the target of its jump.
theorem not_resumed_lastJump :
    ∃ t es rip, Steps (sysExecbuf 1 napBytes.length napBytes napStart) t ∧
      t.log = napStart.log ++ .accepted 1 napBytes :: (es ++ [.freed 1, .resumed 1 rip]) ∧
      performed 1 es = decode (words napBytes) ∧ rip ≠ lastJump 0x500 (decode (words napBytes)) := by
  refine ⟨napDone, _, 0x2000, napDone_steps, rfl, ?_, ?_⟩
  · decide +kernel
  · decide +kernel

end Redirected

end Camellia.Execbuf
