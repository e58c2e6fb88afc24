import Camellia.Kernel.Counters
import Camellia.Kernel.SteadySyscalls

namespace Camellia

open Paths

-- The mounts of all processes over a whole run.

-- A process which mounts something with success puts it in front of its mounts, and a child starts with the
-- mounts of its parent.
def Entry.stacks (s t : State) (l : Pid → List Layer) : Entry → Pid → List Layer
  | .syscall p (.mount hid path) =>
    if t.returned p = some 0 then Function.update l p (⟨s.mounts.size, s.front p hid, path⟩ :: l p) else l
  | .syscall p (.fork _)         => Function.update l s.procs.size (l p)
  | _                            => l

inductive Mounting (paths : List (List UInt8)) : State → (Pid → List Layer) → Prop
  | boot : Mounting paths (bootState paths) fun _ => (List.range paths.length).reverse.map kernelLayer
  | step : Mounting paths s l → Step s e t → Mounting paths t (e.stacks s t l)

section Stack

variable {n : ℕ} {o : Option Pid} {s t : State} {p : Pid} {v : Proc} {top : Option Mid} {l : List Layer}
variable {mounts : List Mid} {flags : Flags}

theorem Covers.isPrefix {pre path : List UInt8} (h : Covers pre path) : pre <+: path := by
  obtain rfl | h | ⟨-, h⟩ := h
  · exact List.prefix_rfl
  · exact (List.prefix_append ..).trans h
  · exact h

theorem deref_of_get {heap : State → Heap α} {obj : Obj} {i : ℕ} {a : α} (h : (heap s).get i = some a) :
    deref heap obj i s = .ok (a, s) := by
  have : wp (deref heap obj i) (fun b t => b = a ∧ t = s) (fun _ => False) s := by simp [h]
  obtain ⟨_, _, hr, rfl, rfl⟩ := wp_false_iff.mp this
  exact hr

theorem Stacked.opens {env : Env} {path q : List UInt8} {e : Layer} (h : Stacked s v.mount l)
    (hv : s.procs.get p = some v) (hq : simplify path = some q) (hlen : path.length ≤ PATH_MAX)
    (hf : flags.has (~~~(OPEN_RW ||| OPEN_CREATE)) = false) (he : l.find? (fun e => covers s q e.mount) = some e) :
    ∃ pre d, q = pre ++ d ∧
      (∀ mpath, e.path = some mpath → Delivered d ∧ ∃ mp, simplify mpath = some mp ∧ pre = stem mp) ∧
      sysOpen env p (some path) flags s = vfsreqCreate env (vfsreqFinishShort env)
        { type := .OPEN, input := .kern s.bufs.size, caller := some p, backend := e.backend, flags := flags }
        (s.withBufs (s.bufs.alloc d)) := by
  obtain ⟨u, hu, hr⟩ := h.request hq hlen hf he
  obtain ⟨u', hu', hback, hpath⟩ := h.get e (List.mem_of_find?_eq_some he)
  obtain rfl := Option.some_inj.mp (hu.symm.trans hu')
  have hcov : Covers u.path q := by simpa [covers, hu] using List.find?_some he
  obtain ⟨d, rfl⟩ := hcov.isPrefix
  have hd : pathBufStrip (u.path ++ d) u.path.length = d := by rw [pathBufStrip_eq (by simp), List.drop_left]
  rw [hd] at hr
  refine ⟨u.path, d, rfl, fun mpath hm => ?_, ?_⟩
  · obtain ⟨mp, hmp, hstem⟩ := hpath mpath hm
    exact ⟨hd ▸ delivered_strip (hstem ▸ isStem_stem hmp) hq hcov, mp, hmp, hstem⟩
  · have hbuf : allocBuf d s = .ok (s.bufs.size, s.withBufs (s.bufs.alloc d)) := rfl
    have hmount : getMount e.mount (s.withBufs (s.bufs.alloc d)) = .ok (u, s.withBufs (s.bufs.alloc d)) :=
      deref_of_get hu
    have hproc : getProc p s = .ok (v, s) := deref_of_get hv
    rw [sysOpen, bind_of_ok hproc, bind_of_ok hr]
    dsimp only
    rw [bind_of_ok hbuf, bind_of_ok hmount, hback]

-- A mount stays as long as it is the first one of a process or lies under one which stays.
theorem Steady.live (h : Steady n o s t) (hc : MountsCounted t) (hchain : Chain (prevMount s) top mounts)
    (hget : ∀ m ∈ mounts, ∃ v, s.mounts.get m = some v) (htop : ∀ m, top = some m → ∃ w, t.mounts.get m = some w) :
    ∀ m ∈ mounts, ∃ w, t.mounts.get m = some w := by
  induction hchain
  case nil => simp
  case cons m l _ hi =>
    obtain ⟨v, hv⟩ := hget m (List.mem_cons_self ..)
    obtain ⟨w, hw⟩ := htop m rfl
    obtain ⟨v', hv', hprev, -⟩ := h.mounts m w (Heap.lt_size hv) hw
    obtain rfl := Option.some_inj.mp (hv.symm.trans hv')
    refine List.forall_mem_cons.mpr ⟨⟨w, hw⟩, hi (fun k hk => hget k (List.mem_cons_of_mem _ hk)) fun k hk => ?_⟩
    rw [prevMount, hv, Option.bind_some, ← hprev] at hk
    exact (hc.held k).mp (.inr ⟨m, w, hw, hk⟩)

theorem Stacked.steady {q : Pid} {w : Proc} (h : Stacked s top l) (ht : Steady n o s t) (hc : MountsCounted t)
    (hw : t.procs.get q = some w) (hm : w.mount = top) : Stacked t w.mount l := by
  have hget (m : Mid) (hmem : m ∈ l.map Layer.mount) : ∃ v, s.mounts.get m = some v := by
    obtain ⟨e, he, rfl⟩ := List.mem_map.mp hmem
    exact (h.get e he).imp fun _ => And.left
  have hlive := ht.live hc h.chain hget fun m htop => (hc.held m).mp (.inl ⟨q, w, hw, hm.trans htop⟩)
  rw [hm]
  refine h.congr fun e he v hv => ?_
  obtain ⟨x, hx⟩ := hlive e.mount (List.mem_map_of_mem he)
  obtain ⟨v', hv', hsame⟩ := ht.mounts e.mount x (Heap.lt_size hv) hx
  obtain rfl := Option.some_inj.mp (hv.symm.trans hv')
  exact ⟨x, hx, hsame⟩

end Stack

section Run

variable {s t : State} {e : Entry} {l : Pid → List Layer} {paths : List (List UInt8)}

-- Every process which lives has the mounts which it should have.
def StacksOk (s : State) (l : Pid → List Layer) : Prop :=
  ∀ q v, s.procs.get q = some v → v.state.alive → Stacked s v.mount (l q)

theorem Entry.stacks_of_ne {q : Pid} (h : some q ≠ e.remounts s) : e.stacks s t l q = l q := by
  cases e
  case syscall p call =>
    cases call
    case fork flags     => exact Function.update_of_ne (fun hq => h (congrArg some hq)) ..
    case mount hid path =>
      simp only [Entry.stacks]
      split
      · exact Function.update_of_ne (fun hq => h (congrArg some hq)) ..
      · rfl
    all_goals rfl
  all_goals rfl

theorem StacksOk.step (hs : StacksOk s l) (h : Step s e t) (hok : SharesOk s) (htimer : TimerOk s)
    (hc : MountsCounted t) : StacksOk t (e.stacks s t l) := by
  intro q w hw ha
  have hsteady : Steady 0 (e.remounts s) s t := h.steady hok
  obtain ⟨ht, _, husers⟩ := h.users hok htimer
  by_cases hq : some q = e.remounts s
  case neg =>
    obtain ⟨v, hv, hva, hm⟩ := hsteady.alive hok ht hq hw ha
    rw [Entry.stacks_of_ne hq]
    exact (hs q v hv hva).steady hsteady hc hw hm
  case pos =>
    have hkilled (hk : e.kills = some q) : Stacked t w.mount (e.stacks s t l q) := by
      rw [husers.dead ht hk hw] at ha
      contradiction
    cases e
    case kill p ret     => exact hkilled hq.symm
    case syscall p call =>
      obtain ⟨v, hv, hrun⟩ := h.enabled
      have hstack := hs p v hv (by rw [hrun]; rfl)
      cases call
      case exit ret       => exact hkilled hq.symm
      case mount hid path =>
        obtain rfl := Option.some_inj.mp hq
        obtain ⟨_, hr⟩ := h.run
        obtain ⟨w', hw', hstacked⟩ := wlp_of_ok hr (sysMount_spec hv hstack)
        obtain rfl := Option.some_inj.mp (hw.symm.trans hw')
        simp only [Entry.stacks]
        split_ifs at hstacked ⊢
        · rwa [Function.update_self]
        · exact hstacked
      case fork flags     =>
        obtain rfl := Option.some_inj.mp hq
        obtain ⟨_, hr⟩ := h.run
        obtain ⟨v', hv', hm⟩ := (wlp_of_ok hr (sysFork_sired (n := 0) hok)).child w hw ha
        obtain rfl := Option.some_inj.mp (hv.symm.trans hv')
        simp only [Entry.stacks, Function.update_self]
        exact hstack.steady hsteady hc hw hm
      all_goals contradiction
    all_goals contradiction

theorem Mounting.reachable (h : Mounting paths s l) : Reachable paths s := by
  induction h
  case boot         => exact .boot
  case step _ hs hi => exact .step hi trivial hs

-- A run which can be evaluated, with the mounts of its processes.
def stackAll (env : Env) : List Entry → State → (Pid → List Layer) → Option (State × (Pid → List Layer))
  | [], s, l      => some (s, l)
  | e :: es, s, l => (enterAll env [e] s).bind fun t => stackAll env es t (e.stacks s t l)

theorem Mounting.stackAll {env : Env} {es : List Entry} {l' : Pid → List Layer} (h : Mounting paths s l)
    (hr : stackAll env es s l = some (t, l')) : Mounting paths t l' := by
  induction es generalizing s l
  case nil =>
    obtain ⟨rfl, rfl⟩ := Prod.mk.inj (Option.some_inj.mp hr)
    exact h
  case cons e es hi =>
    obtain ⟨u, hu, hr⟩ := Option.bind_eq_some_iff.mp hr
    exact hi (.step h (.of_enterAll hu)) hr

end Run
end Camellia
