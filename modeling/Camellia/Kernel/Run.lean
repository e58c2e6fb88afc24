import Camellia.Kernel.Syscalls
import Camellia.Kernel.Update

namespace Camellia

section Boot

-- `vfs_root_register`, where the second component is `mount_root`.
def vfsRootRegister (boot : State × Option Mid) (path : List UInt8) : State × Option Mid :=
  let s := boot.1
  let backend : VfsBackend := { usehcnt := 1, provhcnt := 1, access := .kern none }
  let mount : VfsMount := { prev := boot.2, path := path, backend := some s.backends.size, refs := 1 }
  ((s.withBackends (s.backends.alloc backend)).withMounts (s.mounts.alloc mount), some s.mounts.size)

-- The static handle is all there is in the beginning.
def staticState : State where
  handles := ⟨[some { type := .fsFront, refcount := 2 }]⟩

-- The process of `proc_seed`.
def procInit (mount : Option Mid) : Proc where
  state    := .running
  pages    := some 0
  mount    := mount
  globalid := 1
  handles  := some 0
  pns      := 0
  localid  := 1
  nextlid  := 2

def procSeed (boot : State × Option Mid) : State :=
  { boot.1 with
    procs    := .alloc .empty (procInit boot.2)
    pagedirs := .alloc .empty ()
    tables   := .alloc .empty fun _ => none
    nextPid  := 2 }

-- The drivers of the kernel are registered one after the other, and then the first process starts.
def bootState (paths : List (List UInt8)) : State :=
  procSeed (paths.foldl vfsRootRegister (staticState, none))

end Boot

-- The reasons to enter the kernel. A process is killed from outside if it causes an exception or if
-- it is sent the interrupt for this, and other interrupts wake it up. A driver may finish a request
-- that it has kept at any time.
inductive Entry
  | syscall (p : Pid) (call : Syscall)
  | kill (p : Pid) (ret : Int)
  | intr (p : Pid)
  | prune
  | timer (counter : ℕ)
  | finish (r : Rid) (ret : Int)

def Entry.Enabled (s : State) : Entry → Prop
  | .syscall p _ => ∃ v, s.procs.get p = some v ∧ v.state = .running
  | .finish r _  => r ∈ s.held
  | _            => True

instance {s : State} : ∀ e : Entry, Decidable (e.Enabled s)
  | .syscall p _ => decidable_of_iff ((s.procs.get p).any (·.state = .running)) (by simp [Option.any_eq_true, Entry.Enabled])
  | .finish r _  => inferInstanceAs (Decidable (r ∈ s.held))
  | .kill ..     => isTrue trivial
  | .intr _      => isTrue trivial
  | .prune       => isTrue trivial
  | .timer _     => isTrue trivial

def enter (env : Env) : Entry → K Unit
  | .syscall p call => syscall env p call
  | .kill p ret     => procKill env p ret
  | .intr p         => procTryintr p
  | .prune          => procPruneLeaves
  | .timer counter  => hpetIrq counter
  | .finish r ret   => do
    modify fun s => { s with held := s.held.erase r }
    vfsreqFinishShort env r ret

-- An environment for runs in which no driver of the kernel is involved.
def quietEnv : Env where
  drv        := fun _ _ => none
  resWritten := fun _ => true
  copied     := id
  mapped     := fun _ => PATH_MAX

-- What the system call of a process returned, if it has returned.
def State.returned (s : State) (p : Pid) : Option Int :=
  (s.procs.get p).bind fun v => if v.state = .running then some v.rax else none

-- One entry into the kernel which does not fail.
structure Step (s : State) (e : Entry) (t : State) : Prop where
  enabled : e.Enabled s
  run     : ∃ env, enter env e s = .ok ((), t)

-- The states which are reached from boot by entries which meet a condition.
inductive Run (C : State → Entry → Prop) (paths : List (List UInt8)) : State → Prop
  | boot : Run C paths (bootState paths)
  | step : Run C paths s → C s e → Step s e t → Run C paths t

-- The states which are reached at all.
abbrev Reachable : List (List UInt8) → State → Prop :=
  Run fun _ _ => True

-- A run which can be evaluated: one entry after the other, in the same environment.
def enterAll (env : Env) : List Entry → State → Option State
  | [], s      => some s
  | e :: es, s =>
    if e.Enabled s then
      match enter env e s with
      | .ok (_, t) => enterAll env es t
      | .error _   => none
    else
      none

theorem enterAll_cons {env : Env} {e : Entry} {es : List Entry} {s u : State} (h : enterAll env (e :: es) s = some u) :
    ∃ t, Step s e t ∧ enterAll env es t = some u := by
  rw [enterAll] at h
  split_ifs at h with he
  split at h
  case h_1 t ht => exact ⟨t, ⟨he, env, ht⟩, h⟩
  case h_2      => contradiction

theorem Step.of_enterAll {env : Env} {e : Entry} {s t : State} (h : enterAll env [e] s = some t) : Step s e t := by
  obtain ⟨u, hu, h⟩ := enterAll_cons h
  exact Option.some_inj.mp h ▸ hu

theorem Run.enterAll {env : Env} {paths : List (List UInt8)} {es : List Entry} {s t : State}
    (hs : Reachable paths s) (ht : enterAll env es s = some t) : Reachable paths t := by
  induction es generalizing s
  case nil => exact Option.some_inj.mp ht ▸ hs
  case cons e es hi =>
    obtain ⟨u, hu, ht⟩ := enterAll_cons ht
    exact hi (.step hs trivial hu) ht

-- What holds in the beginning and is preserved by every entry holds always.
theorem Run.invariant {C : State → Entry → Prop} {I : State → Prop} {paths : List (List UInt8)}
    {s : State} (hr : Run C paths s) (hboot : I (bootState paths))
    (hstep : ∀ s e t, I s → C s e → Step s e t → I t) : I s := by
  induction hr
  case boot          => exact hboot
  case step hc hs hi => exact hstep _ _ _ hi hc hs

section Boot

variable {paths : List (List UInt8)}

-- The registration of drivers concerns only backends and mounts.
structure Registered (s t : State) : Prop where
  eq : t = (s.withBackends t.backends).withMounts t.mounts

theorem registered_foldl (boot : State × Option Mid) :
    Registered boot.1 (paths.foldl vfsRootRegister boot).1 := by
  induction paths generalizing boot
  case nil => exact ⟨rfl⟩
  case cons path paths hi =>
    have := (hi (vfsRootRegister boot path)).eq
    refine ⟨?_⟩
    rw [List.foldl_cons, this]
    rfl

end Boot
end Camellia
