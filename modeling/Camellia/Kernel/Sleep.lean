import Camellia.Kernel.LastUser
import Camellia.Kernel.Tree

namespace Camellia

-- Nobody goes to sleep, and who sleeps on keeps the time to wake up and the place in the list.
structure Dozes (s t : State) : Prop where
  scheduled : t.scheduled.Sublist s.scheduled
  goals     : s.procs.Grows (fun v w => w.goal = v.goal) t.procs

instance : IsPreorder State Dozes where
  refl _            := ⟨.refl _, .refl fun _ => rfl⟩
  trans _ _ _ h₁ h₂ :=
    ⟨h₂.scheduled.trans h₁.scheduled, h₁.goals.trans (fun _ _ _ h h' => h'.trans h) h₂.goals⟩

section Basic

variable {s t : State} {p i : ℕ} {v : Proc}

theorem Calm.dozes (h : Calm s t) : Dozes s t := by
  refine ⟨h.scheduled, h.procs.size.ge, fun q _ w hw => ?_⟩
  obtain ⟨v, hv, hk⟩ := h.procs.of_get' hw
  exact ⟨v, hv, by rw [hk.eq]⟩

@[grind ←]
theorem respects_dozes {x : K α} (h : Respects Calm x) : Respects Dozes x :=
  fun s => wlp_post (h s) fun _ _ => Calm.dozes

theorem dozes_of_eq (hp : t.procs = s.procs) (hs : t.scheduled = s.scheduled) : Dozes s t :=
  ⟨hs ▸ .refl _, hp ▸ .refl fun _ => rfl⟩

theorem dozes_modify {f : State → State} (hp : ∀ s, (f s).procs = s.procs)
    (hs : ∀ s, (f s).scheduled = s.scheduled) : Respects Dozes (modify f : K Unit) :=
  respects_modify fun s => dozes_of_eq (hp s) (hs s)

theorem updProc_dozes {f : Proc → Proc} (hf : ∀ v, (f v).goal = v.goal) :
    Respects Dozes (updProc p f) := by
  intro s
  rw [wlp_updProc]
  exact fun v hv => ⟨.refl _, .set (fun _ => rfl) hv (hf v)⟩

theorem procSetstate_dozes {state : PState} : Respects Dozes (procSetstate p state) := by
  have hset : Respects Dozes (updProc p ({ · with state := state })) := updProc_dozes fun _ => rfl
  refine .bind getProc_respects fun v => .bind kassert_respects fun _ => ?_
  cases state
  case running => exact hset
  case dying   => exact hset
  case toreap  => exact .bind (respects_of_reads procSetstateToreap_reads) fun _ => hset
  all_goals exact .bind kassert_respects fun _ => hset

theorem kfree_dozes {heap : State → Heap α} {put : State → Heap α → State}
    (hp : ∀ s h, (put s h).procs = s.procs) (hs : ∀ s h, (put s h).scheduled = s.scheduled) :
    Respects Dozes (kfree heap put i) := by
  intro s
  rw [wlp_kfree]
  exact fun _ _ => dozes_of_eq (hp _ _) (hs _ _)

theorem freeProc_dozes : Respects Dozes (freeProc p) := by
  intro s
  rw [wlp_freeProc]
  exact fun _ _ => ⟨.refl _, .free fun _ => rfl⟩

theorem freeCount_dozes : Respects Dozes (freeCount i) :=
  kfree_dozes (fun _ _ => rfl) fun _ _ => rfl

theorem freeTable_dozes : Respects Dozes (freeTable i) :=
  kfree_dozes (fun _ _ => rfl) fun _ _ => rfl

theorem freePagedir_dozes : Respects Dozes (freePagedir i) :=
  kfree_dozes (fun _ _ => rfl) fun _ _ => rfl

theorem setCount_dozes {n : ℕ} : Respects Dozes (setCount i n) :=
  dozes_modify (fun _ => rfl) fun _ => rfl

end Basic

section Reap

variable {p q dead parent : Pid} {v : Proc}

theorem procTryreapBury_dozes : Respects Dozes (procTryreapBury dead) :=
  .bind procSetstate_dozes fun _ => updProc_dozes fun _ => rfl

theorem procTryreapParent_dozes : Respects Dozes (procTryreapParent dead parent) := by
  refine .bind getProc_respects fun w => .ite respects_pure ?_
  refine .bind (respects_of_reads procNsId_reads) fun id => .ite respects_pure ?_
  exact .bind (updProc_dozes fun _ => rfl) fun _ => .bind getProc_respects fun _ =>
    .bind (dozes_modify (fun _ => rfl) fun _ => rfl) fun _ => .bind procSetstate_dozes fun _ => respects_pure

theorem procReapable_dozes : Respects Dozes (procReapable v) := by
  rw [procReapable]
  cases v.parent
  case none   => exact respects_pure
  case some q => exact .bind getProc_respects fun _ => respects_pure

theorem procTryreapToreap_dozes : Respects Dozes (procTryreapToreap dead) := by
  refine .bind getProc_respects fun v => .bind procReapable_dozes fun o => ?_
  have hbury : Respects Dozes (do procTryreapBury dead; pure true) :=
    .bind procTryreapBury_dozes fun _ => respects_pure
  cases o
  case none   => exact hbury
  case some q => exact .bind procTryreapParent_dozes fun _ => .ite hbury respects_pure

theorem procTryreapLeaf_dozes : Respects Dozes (procTryreapLeaf dead v) := by
  refine .bind kassert_respects fun _ => .ite ?_ kassert_respects
  exact .bind procSetstate_dozes fun _ => dozes_modify (fun _ => rfl) fun _ => rfl

theorem procTryreapTombstone_dozes : Respects Dozes (procTryreapTombstone dead) := by
  refine .bind getProc_respects fun v => ?_
  cases v.child
  case some c =>
    exact .bind kassert_respects fun _ => respects_of_reads procTryreapCheck_reads
  case none =>
    cases v.parent
    case none   => exact respects_pure
    case some q => exact procTryreapLeaf_dozes

theorem procTryreap_dozes : Respects Dozes (procTryreap dead) := by
  refine .bind getProc_respects fun v => .bind (respects_of_reads procTryreapStart_reads) fun _ => ?_
  refine .ite (.bind procTryreapToreap_dozes fun b => ?_) procTryreapTombstone_dozes
  exact .ite procTryreapTombstone_dozes respects_pure

theorem procUnlinkLoop_dozes {next : Option Pid} {fuel : ℕ} :
    Respects Dozes (procUnlinkLoop p next fuel q) := by
  induction fuel generalizing q
  case zero => exact respects_throw
  case succ fuel hi =>
    refine .bind getProc_respects fun v => ?_
    cases v.sibling
    case none   => exact respects_throw
    case some _ => exact .ite (updProc_dozes fun _ => rfl) hi

theorem procPruneLeaf_dozes {leaves : List Pid} : Respects Dozes (procPruneLeaf p leaves) := by
  refine .bind getProc_respects fun v => .bind (dozes_modify (fun _ => rfl) fun _ => rfl) fun _ =>
    .bind kassert_respects fun _ => ?_
  cases v.parent
  case none => exact respects_throw
  case some parent =>
    refine .bind getProc_respects fun w => ?_
    cases w.child
    case none => exact respects_throw
    case some first =>
      have hunlink : Respects Dozes (procUnlink p v.sibling parent first) :=
        .ite (updProc_dozes fun _ => rfl) (.bind respects_get fun _ => procUnlinkLoop_dozes)
      exact .bind kassert_respects fun _ => .bind hunlink fun _ => .bind procSetstate_dozes fun _ =>
        .bind freeProc_dozes fun _ => .bind getProc_respects fun _ =>
        .ite procTryreap_dozes respects_pure

theorem procPruneLeaves_dozes : Respects Dozes procPruneLeaves := by
  have hloop {fuel : ℕ} : Respects Dozes (procPruneLeavesLoop fuel) := by
    induction fuel
    case zero => exact .bind respects_get fun _ => .ite respects_throw respects_pure
    case succ fuel hi =>
      refine .bind respects_get fun s => ?_
      cases s.deadLeaves
      case nil         => exact respects_pure
      case cons p rest => exact .bind procPruneLeaf_dozes fun _ => hi
  exact .bind respects_get fun _ => hloop

end Reap

section Kill

variable {env : Env} {p : Pid} {ret : Int}

theorem unref_dozes {o : Option Cid} : Respects Dozes (unref o) := by
  cases o
  case none => exact respects_pure
  case some c =>
    exact .bind getCount_respects fun _ => .bind kassert_respects fun _ => .bind setCount_dozes fun _ =>
      .ite (.bind freeCount_dozes fun _ => respects_pure) respects_pure

theorem procKillHandles_dozes : Respects Dozes (procKillHandles env p) := by
  have htid : Respects Dozes (procTable p) := .bind getProc_respects fun _ => nonNull_respects
  have htable : Respects Dozes (procKillTable env p) :=
    .bind (.forM fun _ => respects_dozes procHandleClose_calm) fun _ => .bind htid fun _ => freeTable_dozes
  have hnone : Respects Dozes (updProc p ({ · with handles := none })) := updProc_dozes fun _ => rfl
  exact .bind getProc_respects fun _ => .bind unref_dozes fun _ => .ite (.bind htable fun _ => hnone) hnone

theorem procKillChildren_dozes {fuel : ℕ} {o : Option Pid} :
    Respects Dozes (procKillChildren fuel o) := by
  induction fuel generalizing o
  case zero =>
    cases o
    case none   => exact respects_pure
    case some q => exact respects_throw
  case succ fuel hi =>
    cases o
    case none   => exact respects_pure
    case some q =>
      exact .bind getProc_respects fun _ => .ite (.bind procTryreap_dozes fun _ => hi) hi

theorem procKillPages_dozes : Respects Dozes (procKillPages p) := by
  have hnone : Respects Dozes (updProc p ({ · with pages := none })) := updProc_dozes fun _ => rfl
  exact .bind getProc_respects fun v => .bind unref_dozes fun _ =>
    .ite (.bind nonNull_respects fun _ => .bind freePagedir_dozes fun _ => hnone) hnone

theorem procKillAlive_dozes : Respects Dozes (procKillAlive env p ret) :=
  .bind (respects_dozes procKillControlled_calm) fun _ =>
  .bind (respects_dozes procKillReqslot_calm) fun _ =>
  .bind (respects_dozes procKillPipe_calm) fun _ =>
  .bind (respects_dozes procKillTimer_calm) fun _ =>
  .bind procKillHandles_dozes fun _ =>
  .bind (respects_dozes procKillMount_calm) fun _ =>
  .bind procSetstate_dozes fun _ =>
  .bind (updProc_dozes fun _ => rfl) fun _ =>
  .bind respects_get fun _ =>
  .bind getProc_respects fun _ =>
  .bind procKillChildren_dozes fun _ =>
  procKillPages_dozes

theorem procKillDying_dozes : Respects Dozes (procKillDying p) := by
  refine .bind getProc_respects fun v => .ite ?_ respects_pure
  cases v.parent
  case none   => exact procSetstate_dozes
  case some q => exact .bind getProc_respects fun _ => .ite procSetstate_dozes procSetstate_dozes

theorem procKill_dozes : Respects Dozes (procKill env p ret) := by
  have hfirst : Respects Dozes (procKillFirst p) :=
    .bind procPruneLeaves_dozes fun _ => .bind getProc_respects fun _ =>
      .ite (.bind respects_throw fun _ => respects_throw) respects_throw
  have hend : Respects Dozes (do
      procKillDying p
      if p = (← get).first then procKillFirst p else procTryreap p) :=
    .bind procKillDying_dozes fun _ => .bind respects_get fun _ => .ite hfirst procTryreap_dozes
  exact .bind getProc_respects fun _ => .ite (.bind procKillAlive_dozes fun _ => hend) hend

end Kill

section Fork

variable {env : Env} {p : Pid} {flags : Flags}

theorem procForkCount_dozes {o : Option Cid} : Respects Dozes (procForkCount o) := by
  have halloc : Respects Dozes (allocCount 1) :=
    .bind respects_get fun _ => .bind (dozes_modify (fun _ => rfl) fun _ => rfl) fun _ => respects_pure
  have hrest (c : Cid) : Respects Dozes (do setCount c ((← getCount c) + 1); pure c) :=
    .bind getCount_respects fun _ => .bind setCount_dozes fun _ => respects_pure
  cases o
  case none   => exact .bind halloc hrest
  case some c => exact hrest c

theorem procForkPages_dozes : Respects Dozes (procForkPages p flags) := by
  have halloc : Respects Dozes allocPagedir :=
    .bind respects_get fun _ => .bind (dozes_modify (fun _ => rfl) fun _ => rfl) fun _ => respects_pure
  refine .bind getProc_respects fun v => .ite ?_ (.bind halloc fun _ => respects_pure)
  exact .bind procForkCount_dozes fun _ => .bind (updProc_dozes fun _ => rfl) fun _ => respects_pure

theorem procForkGlobalid_dozes : Respects Dozes procForkGlobalid := by
  have hrest {n id : ℕ} : Respects Dozes (do
      modify fun s : State => { s with nextPid := n }
      pure id : K ℕ) :=
    .bind (dozes_modify (fun _ => rfl) fun _ => rfl) fun _ => respects_pure
  exact .bind respects_get fun _ => .ite (.bind respects_throw fun _ => hrest) hrest

theorem procForkLocalid_dozes {pns : Pid} : Respects Dozes (procForkLocalid pns) := by
  have hrest {n id : ℕ} : Respects Dozes (do
      updProc pns ({ · with nextlid := n })
      pure id) :=
    .bind (updProc_dozes fun _ => rfl) fun _ => respects_pure
  exact .bind getProc_respects fun _ => .ite (.bind respects_throw fun _ => hrest) hrest

theorem procForkControlled_dozes {o : Option Bid} : Respects Dozes (procForkControlled o flags) := by
  refine .ite respects_pure ?_
  cases o
  case none   => exact respects_pure
  case some b =>
    exact .bind getBackend_respects fun _ => .bind kassert_respects fun _ =>
      .bind (dozes_modify (fun _ => rfl) fun _ => rfl) fun _ => respects_pure

theorem procForkMount_dozes {o : Option Mid} : Respects Dozes (procForkMount o) := by
  cases o
  case none   => exact respects_throw
  case some m =>
    exact .bind getMount_respects fun _ => .bind (dozes_modify (fun _ => rfl) fun _ => rfl) fun _ =>
      respects_pure

theorem procForkTable_dozes {table : Table} : Respects Dozes (procForkTable table) := by
  have hslot {t i h} : Respects Dozes (setSlot t i h) :=
    .bind getTable_respects fun _ => dozes_modify (fun _ => rfl) fun _ => rfl
  have hupd {h} {f : Handle → Handle} : Respects Dozes (updHandle h f) :=
    .bind getHandle_respects fun _ => dozes_modify (fun _ => rfl) fun _ => rfl
  refine .bind (.bind respects_get fun _ => .bind (dozes_modify (fun _ => rfl) fun _ => rfl) fun _ =>
    respects_pure) fun t => .bind (.forM fun i => .bind hslot fun _ => ?_) fun _ => respects_pure
  cases table i
  case none   => exact respects_pure
  case some h => exact hupd

theorem procForkHandles_dozes : Respects Dozes (procForkHandles p flags) := by
  have htid : Respects Dozes (procTable p) := .bind getProc_respects fun _ => nonNull_respects
  refine .bind getProc_respects fun v => .ite ?_ ?_
  · exact .bind procForkCount_dozes fun _ => .bind (updProc_dozes fun _ => rfl) fun _ => respects_pure
  · exact .bind htid fun _ => .bind getTable_respects fun _ => .bind procForkTable_dozes fun _ =>
      respects_pure

theorem procForkLink_dozes {w : Proc} : Respects Dozes (procForkLink p w) := by
  have halloc {v : Proc} : Respects Dozes (allocProc v) := by
    intro s
    rw [wlp_allocProc]
    exact ⟨.refl _, .alloc fun _ => rfl⟩
  exact .bind getProc_respects fun _ => .bind halloc fun _ => .bind (updProc_dozes fun _ => rfl) fun _ =>
    respects_pure

theorem procFork_dozes : Respects Dozes (procFork p flags) :=
  .bind getProc_respects fun _ => .bind kassert_respects fun _ =>
  .bind procForkPages_dozes fun _ =>
  .bind procForkGlobalid_dozes fun _ =>
  .bind procForkLocalid_dozes fun _ =>
  .bind procForkControlled_dozes fun _ =>
  .bind procForkMount_dozes fun _ =>
  .bind procForkHandles_dozes fun _ =>
  procForkLink_dozes

theorem sysFork_dozes : Respects Dozes (sysFork env p flags) := by
  have hret {n : Int} : Respects Dozes (sysReturn p n) := respects_dozes sysReturn_calm
  have hok {child : Pid} : Respects Dozes (do
      sysReturn p (← procNsId (← getProc p).pns child)) :=
    .bind getProc_respects fun _ => .bind (respects_of_reads procNsId_reads) fun _ => hret
  have hfail {child : Pid} : Respects Dozes (sysForkFail env p child) :=
    .bind (updProc_dozes fun _ => rfl) fun _ => .bind procKill_dozes fun _ => hret
  refine .bind procFork_dozes fun child => .bind (updProc_dozes fun _ => rfl) fun _ => ?_
  exact .ite (.bind (respects_dozes sysForkNewfs_calm) fun _ => .ite hok hfail)
    (.bind respects_pure fun _ => .ite hok hfail)

end Fork

section Namespace

variable {p proc old it : Pid}

theorem procNsCreateVisit_dozes : Respects Dozes (procNsCreateVisit proc old it) := by
  have hlid : Respects Dozes (procNsCreateLid proc it) :=
    .bind getProc_respects fun _ => .bind getProc_respects fun _ =>
      .ite (updProc_dozes fun _ => rfl) respects_pure
  have hmove : Respects Dozes (procNsCreateMove proc old it) :=
    .bind getProc_respects fun _ => .ite (updProc_dozes fun _ => rfl) kassert_respects
  exact .ite (.bind hlid fun _ => hmove) respects_pure

theorem procNsCreate_dozes : Respects Dozes (procNsCreate proc) := by
  have hloop {old : Pid} {fuel : ℕ} {o : Option Pid} : Respects Dozes (procNsCreateLoop proc old fuel o) := by
    induction fuel generalizing o
    case zero =>
      cases o
      case none    => exact respects_pure
      case some it => exact respects_throw
    case succ fuel hi =>
      cases o
      case none    => exact respects_pure
      case some it =>
        exact .bind procNsCreateVisit_dozes fun _ =>
          .bind (respects_of_reads procNsCreateNext_reads) fun _ => hi
  have hinit : Respects Dozes (procNsCreateInit proc) :=
    .bind (updProc_dozes fun _ => rfl) fun _ => updProc_dozes fun _ => rfl
  exact .bind getProc_respects fun _ =>
    .ite (.bind hinit fun _ => .bind respects_get fun _ => hloop) respects_pure

theorem sysGetprocfs_dozes {flags : Flags} : Respects Dozes (sysGetprocfs p flags) := by
  have hret {n : Int} : Respects Dozes (sysReturn p n) := respects_dozes sysReturn_calm
  refine .ite hret (.bind procNsCreate_dozes fun _ => .bind (respects_dozes procHandleInit_calm) fun o => ?_)
  cases o
  case none   => exact hret
  case some x =>
    exact .bind (respects_dozes procfsBackend_calm) fun _ =>
      .bind (respects_dozes updHandle_calm) fun _ => hret

end Namespace

section Enter

variable {env : Env} {e : Entry} {p : Pid} {s t : State}

theorem sysWait2_dozes {pid : Int} {flags : Flags} {out : ℕ} :
    Respects Dozes (sysWait2 p pid flags out) := by
  have hret {n : Int} : Respects Dozes (sysReturn p n) := respects_dozes sysReturn_calm
  have hloop {fuel : ℕ} {o : Option Pid} : Respects Dozes (sysWait2Loop fuel o) := by
    induction fuel generalizing o
    case zero =>
      cases o
      case none    => exact respects_pure
      case some it => exact respects_throw
    case succ fuel hi =>
      cases o
      case none    => exact respects_pure
      case some it =>
        have hrest : Respects Dozes (do
            let _ ← sysWait2Loop fuel (← getProc it).sibling
            pure true) :=
          .bind getProc_respects fun _ => .bind hi fun _ => respects_pure
        exact .bind getProc_respects fun _ => .ite hi (.ite (.bind procTryreap_dozes fun _ => hrest) hrest)
  exact .ite hret (.bind procSetstate_dozes fun _ => .bind (updProc_dozes fun _ => rfl) fun _ =>
    .bind respects_get fun _ => .bind getProc_respects fun _ => .bind hloop fun _ =>
    .ite (.bind procSetstate_dozes fun _ => hret) respects_pure)

theorem hpetIrq_dozes {counter : ℕ} : Respects Dozes (hpetIrq counter) := by
  intro s
  simp only [hpetIrq, wlp_bind, wlp_get]
  cases hl : s.scheduled
  case nil => exact wlp_pure.mpr (refl_of Dozes s)
  case cons p rest =>
    simp only [wlp_bind, wlp_getProc, wlp_ite, wlp_modify, wlp_pure]
    refine fun v hv => ⟨fun _ => ?_, fun _ => refl_of Dozes s⟩
    have hpop : Dozes s { s with scheduled := rest } :=
      ⟨hl ▸ List.sublist_cons_self p rest, .refl fun _ => rfl⟩
    exact wlp_of_respects hpop procSetstate_dozes

def Entry.sleeps : Entry → Bool
  | .syscall _ (.sleep _) => true
  | _                     => false

theorem enter_dozes (he : e.sleeps = false) : Respects Dozes (enter env e) := by
  cases e
  case kill p ret     => exact procKill_dozes
  case intr p         => exact respects_dozes procTryintr_calm
  case prune          => exact procPruneLeaves_dozes
  case timer counter  => exact hpetIrq_dozes
  case finish r ret   => exact respects_dozes enterFinish_calm
  case syscall p call =>
    cases call
    case exit ret        => exact procKill_dozes
    case fork flags      => exact sysFork_dozes
    case wait2 pid flags out => exact sysWait2_dozes
    case getprocfs flags => exact sysGetprocfs_dozes
    case sleep goal      => contradiction
    all_goals exact respects_dozes (enterSyscall_calm rfl)

end Enter

-- A run together with the entries it consists of, where the last one comes first.
inductive Trace (paths : List (List UInt8)) : List Entry → State → Prop
  | boot : Trace paths [] (bootState paths)
  | step : Trace paths es s → Step s e t → Trace paths (e :: es) t

-- When the process went to sleep for the last time.
def sleptAt (p : Pid) : List Entry → ℕ
  | []                           => 0
  | .syscall q (.sleep _) :: es  => if q = p then es.length + 1 else sleptAt p es
  | _ :: es                      => sleptAt p es

def State.goal (s : State) (p : Pid) : ℕ :=
  (s.procs.get p).elim 0 Proc.goal

-- Who is woken up earlier, or was there earlier.
def Precedes (es : List Entry) (s : State) (p q : Pid) : Prop :=
  s.goal p < s.goal q ∨ s.goal p = s.goal q ∧ sleptAt p es < sleptAt q es

section Sleep

variable {paths : List (List UInt8)} {es : List Entry} {s t : State} {e : Entry} {p : Pid} {v : Proc}

theorem Trace.reachable (h : Trace paths es s) : Reachable paths s := by
  induction h
  case boot         => exact .boot
  case step hs hi => exact .step hi trivial hs

theorem sleptAt_le : sleptAt p es ≤ es.length := by
  induction es
  case nil => exact le_rfl
  case cons e es hi =>
    rw [List.length_cons]
    unfold sleptAt
    split
    · contradiction
    · rename_i h
      cases h
      split_ifs <;> omega
    · rename_i h
      cases h
      omega

theorem sleptAt_cons (he : e.sleeps = false) : sleptAt p (e :: es) = sleptAt p es := by
  cases e
  case syscall q call => cases call <;> first | rfl | contradiction
  all_goals rfl

theorem TimerOk.mem_iff (h : TimerOk s) :
    p ∈ s.scheduled ↔ ∃ v, s.procs.get p = some v ∧ v.state = .waits4timer := by
  have hp := h p
  rw [← List.count_pos_iff, hp]
  cases s.procs.get p
  case none   => simp
  case some v => by_cases hs : v.state = .waits4timer <;> simp [hs]

theorem TimerOk.nodup (h : TimerOk s) : s.scheduled.Nodup :=
  List.nodup_iff_count_le_one.mpr fun p => by
    rw [h p]
    cases s.procs.get p
    case none   => exact Nat.zero_le 1
    case some v => by_cases hs : v.state = .waits4timer <;> simp [hs]

theorem Dozes.goal_eq (h : Dozes s t) (hs : TimerOk s) (ht : TimerOk t) (hp : p ∈ t.scheduled) :
    t.goal p = s.goal p := by
  obtain ⟨w, hw, -⟩ := ht.mem_iff.mp hp
  obtain ⟨v, hv, -⟩ := hs.mem_iff.mp (h.scheduled.subset hp)
  obtain ⟨v', hv', hg⟩ := h.goals.get p (Heap.lt_size hv) w hw
  rw [State.goal, State.goal, hv', hw]
  exact hg

theorem Dozes.precedes (h : Dozes s t) (hs : TimerOk s) (ht : TimerOk t) (he : e.sleeps = false)
    (hq : s.scheduled.Pairwise (Precedes es s)) : t.scheduled.Pairwise (Precedes (e :: es) t) := by
  refine (hq.sublist h.scheduled).imp_of_mem fun {p q} hp hq hpq => ?_
  rwa [Precedes, h.goal_eq hs ht hp, h.goal_eq hs ht hq, sleptAt_cons he, sleptAt_cons he]

-- The new process is put after those which do not wake up later.
theorem timerInsert_spec {goal : ℕ} {l : List Pid} :
    wlp (timerInsert p goal l) (fun l' t => t = s ∧ ∃ l₁ l₂, l = l₁ ++ l₂ ∧ l' = l₁ ++ p :: l₂ ∧
      (∀ q ∈ l₁, s.goal q ≤ goal) ∧ ∀ q ∈ l₂.head?, goal < s.goal q) s := by
  induction l
  case nil => exact wlp_pure.mpr ⟨rfl, [], [], rfl, rfl, by simp, by simp⟩
  case cons q l hi =>
    simp only [timerInsert, wlp_bind, wlp_getProc, wlp_ite, wlp_kassert, wlp_pure]
    intro v hv
    have hq : s.goal q = v.goal := by rw [State.goal, hv, Option.elim_some]
    refine ⟨fun hle _ => wlp_post hi fun l' t hx => ?_, fun hlt => ?_⟩
    · obtain ⟨ht, l₁, l₂, hl, hl', h₁, h₂⟩ := hx
      refine ⟨ht, q :: l₁, l₂, by rw [hl, List.cons_append], by rw [hl', List.cons_append], ?_, h₂⟩
      intro r hr
      obtain rfl | hr := List.mem_cons.mp hr
      · exact hq ▸ hle
      · exact h₁ r hr
    · refine ⟨trivial, [], q :: l, rfl, rfl, by simp, ?_⟩
      intro r hr
      obtain rfl := Option.some_inj.mp hr
      exact hq ▸ not_le.mp hlt

theorem timerSchedule_spec {goal : ℕ} (ht : TimerOk s) :
    wlp (timerSchedule p goal) (fun _ t => p ∉ s.scheduled ∧ t.goal p = goal ∧
      (∀ q, q ≠ p → t.goal q = s.goal q) ∧ ∃ l₁ l₂, s.scheduled = l₁ ++ l₂ ∧
        t.scheduled = l₁ ++ p :: l₂ ∧ (∀ q ∈ l₁, s.goal q ≤ goal) ∧
        ∀ q ∈ l₂.head?, goal < s.goal q) s := by
  simp only [timerSchedule, wlp_bind]
  rw [wlp_procSetstate_waiting rfl]
  intro v hv hs
  have hp : p ∉ s.scheduled := fun hp => by
    obtain ⟨w, hw, hw'⟩ := ht.mem_iff.mp hp
    obtain rfl := Option.some_inj.mp (hv.symm.trans hw)
    rw [hs] at hw'
    contradiction
  simp only [wlp_updProc, wlp_get, wlp_modify, State.withProcs_procs, State.withProcs_scheduled]
  intro w hw
  have hgoal (q : Pid) : State.goal ((s.withProcs (s.procs.set p { v with state := .waits4timer })).withProcs
      ((s.procs.set p { v with state := .waits4timer }).set p { w with goal := goal })) q =
      if q = p then goal else s.goal q := by
    simp only [State.goal, State.withProcs_procs, Heap.set_set, Heap.get_set hv]
    by_cases hq : q = p <;> simp [hq]
  refine wlp_post timerInsert_spec fun l' t hx => ?_
  obtain ⟨ht, l₁, l₂, hl, hl', h₁, h₂⟩ := hx
  have hne {q : Pid} (hq : q ∈ l₁ ++ l₂) : q ≠ p := fun h => hp (hl ▸ h ▸ hq)
  refine ⟨hp, ?_, fun q hq => ?_, l₁, l₂, hl, hl', fun q hq => ?_, fun q hq => ?_⟩
  · rw [State.goal, ht]
    exact (hgoal p).trans (if_pos rfl)
  · rw [State.goal, ht]
    exact (hgoal q).trans (if_neg hq)
  · have := h₁ q hq
    rwa [hgoal, if_neg (hne (List.mem_append_left _ hq))] at this
  · have := h₂ q hq
    rwa [hgoal, if_neg (hne (List.mem_append_right _ (List.mem_of_mem_head? hq)))] at this

theorem precedes_sleep {goal : ℕ} {l₁ l₂ : List Pid} (hq : s.scheduled.Pairwise (Precedes es s))
    (hp : p ∉ s.scheduled) (hgoal : t.goal p = goal) (hsame : ∀ q, q ≠ p → t.goal q = s.goal q)
    (hs : s.scheduled = l₁ ++ l₂) (ht : t.scheduled = l₁ ++ p :: l₂)
    (h₁ : ∀ q ∈ l₁, s.goal q ≤ goal) (h₂ : ∀ q ∈ l₂.head?, goal < s.goal q) :
    t.scheduled.Pairwise (Precedes (.syscall p (.sleep goal) :: es) t) := by
  have hne {q : Pid} (hq : q ∈ s.scheduled) : q ≠ p := fun h => hp (h ▸ hq)
  have hold {q : Pid} (hq : q ≠ p) : sleptAt q (.syscall p (.sleep goal) :: es) = sleptAt q es := by
    rw [sleptAt, if_neg hq.symm]
  have hnew : sleptAt p (.syscall p (.sleep goal) :: es) = es.length + 1 := by
    rw [sleptAt, if_pos rfl]
  have hkeep : s.scheduled.Pairwise (Precedes (.syscall p (.sleep goal) :: es) t) := by
    refine hq.imp_of_mem fun {q r} hq hr hqr => ?_
    rwa [Precedes, hsame q (hne hq), hsame r (hne hr), hold (hne hq), hold (hne hr)]
  -- All processes after the new one wake up later than it.
  have hlater (q : Pid) (hq' : q ∈ l₂) : goal < s.goal q := by
    have hpair := (List.pairwise_append.mp (hs ▸ hq)).2.1
    cases l₂
    case nil => contradiction
    case cons r l =>
      have hr := h₂ r rfl
      obtain rfl | hq' := List.mem_cons.mp hq'
      · exact hr
      · obtain h | h := List.rel_of_pairwise_cons hpair hq'
        · exact hr.trans h
        · exact h.1 ▸ hr
  rw [hs, List.pairwise_append] at hkeep
  rw [ht, List.pairwise_append, List.pairwise_cons]
  refine ⟨hkeep.1, ⟨fun q hq' => .inl ?_, hkeep.2.1⟩, fun q hq' r hr => ?_⟩
  · rw [hgoal, hsame q (hne (hs ▸ List.mem_append_right _ hq'))]
    exact hlater q hq'
  · have hqs : q ∈ s.scheduled := hs ▸ List.mem_append_left _ hq'
    obtain rfl | hr := List.mem_cons.mp hr
    · rw [Precedes, hgoal, hsame q (hne hqs), hold (hne hqs), hnew]
      obtain h | h := lt_or_eq_of_le (h₁ q hq')
      · exact .inl h
      · exact .inr ⟨h, Nat.lt_succ_of_le sleptAt_le⟩
    · exact hkeep.2.2 q hq' r hr

theorem Step.precedes (hstep : Step s e t) (hs : TimerOk s) (ht : TimerOk t)
    (hq : s.scheduled.Pairwise (Precedes es s)) : t.scheduled.Pairwise (Precedes (e :: es) t) := by
  obtain ⟨env, hrun⟩ := hstep.run
  by_cases he : e.sleeps = false
  case pos => exact ((enter_dozes he).of_ok hrun).precedes hs ht he hq
  case neg =>
    obtain ⟨p, goal, rfl⟩ : ∃ p goal, e = .syscall p (.sleep goal) := by
      cases e
      case syscall p call =>
        cases call
        case sleep goal => exact ⟨p, goal, rfl⟩
        all_goals exact absurd rfl he
      all_goals exact absurd rfl he
    obtain ⟨hp, hg, hsame, l₁, l₂, hl, hl', h₁, h₂⟩ := wlp_of_ok hrun (timerSchedule_spec hs)
    exact precedes_sleep hq hp hg hsame hl hl' h₁ h₂

-- The processes which sleep are in the list, each once, and in the order in which they wake up. If it
-- is the same time, then it is the order in which they went to sleep. The timer leaves everybody
-- alone whose time has not come.
structure SleepQueue (es : List Entry) (s : State) : Prop where
  nodup  : s.scheduled.Nodup
  exact  : ∀ p, p ∈ s.scheduled ↔ ∃ v, s.procs.get p = some v ∧ v.state = .waits4timer
  sorted : s.scheduled.Pairwise fun p q => s.goal p ≤ s.goal q
  stable : s.scheduled.Pairwise fun p q => s.goal p = s.goal q → sleptAt p es < sleptAt q es
  early  : ∀ counter t p v, Step s (.timer counter) t → s.procs.get p = some v →
    v.state = .waits4timer → counter ≤ v.goal → t.procs.get p = some v ∧ p ∈ t.scheduled

theorem hpetIrq_early {counter : ℕ} (hv : s.procs.get p = some v) (hp : p ∈ s.scheduled)
    (hg : counter ≤ v.goal) :
    wlp (hpetIrq counter) (fun _ t => t.procs.get p = some v ∧ p ∈ t.scheduled) s := by
  simp only [hpetIrq, wlp_bind, wlp_get]
  cases hl : s.scheduled
  case nil =>
    rw [hl] at hp
    contradiction
  case cons q rest =>
    simp only [wlp_bind, wlp_getProc, wlp_ite, wlp_modify, wlp_procSetstate_running, wlp_pure]
    refine fun w hw => ⟨fun hlt w' hw' _ => ?_, fun _ => ⟨hv, hp⟩⟩
    have hne : p ≠ q := fun h => by
      obtain rfl := Option.some_inj.mp (hv.symm.trans (h ▸ hw))
      omega
    refine ⟨?_, ?_⟩
    · exact (Heap.get_set_ne hne).trans hv
    · rw [hl] at hp
      exact (List.mem_cons.mp hp).resolve_left hne

theorem trace_sleepQueue (h : Trace paths es s) : SleepQueue es s := by
  have ht := h.reachable.shares.2
  have hq : s.scheduled.Pairwise (Precedes es s) := by
    induction h
    case boot =>
      rw [bootState_scheduled]
      exact .nil
    case step hr hstep hi => exact hstep.precedes hr.reachable.shares.2 ht (hi hr.reachable.shares.2)
  refine ⟨ht.nodup, fun _ => ht.mem_iff, hq.imp ?_, hq.imp ?_, fun counter t p v hstep hv hs hg => ?_⟩
  · intro p q h
    exact h.elim le_of_lt fun h => h.1.le
  · intro p q h heq
    exact (h.resolve_left heq.not_lt).2
  · obtain ⟨env, hrun⟩ := hstep.run
    have h : wlp (enter env (.timer counter)) (fun _ t => t.procs.get p = some v ∧ p ∈ t.scheduled) s :=
      hpetIrq_early hv (ht.mem_iff.mpr ⟨v, hv, hs⟩) hg
    exact wlp_of_ok (Q := fun _ t => t.procs.get p = some v ∧ p ∈ t.scheduled) hrun h

-- Two processes go to sleep until the same time.
theorem trace_sleepQueue_two : ∃ es s, Trace [[]] es s ∧ s.scheduled = [0, 1] ∧ SleepQueue es s := by
  have hrun : ∃ a b c, Step (bootState [[]]) (.syscall 0 (.fork 0)) a ∧
      Step a (.syscall 0 (.sleep 7)) b ∧ Step b (.syscall 1 (.sleep 7)) c ∧ c.scheduled = [0, 1] :=
    ⟨_, _, _, ⟨⟨_, rfl, rfl⟩, quietEnv, rfl⟩, ⟨⟨_, rfl, rfl⟩, quietEnv, rfl⟩,
      ⟨⟨_, rfl, rfl⟩, quietEnv, rfl⟩, rfl⟩
  have ⟨a, b, c, h₁, h₂, h₃, hc⟩ := hrun
  have h : Trace [[]] _ c := .step (.step (.step .boot h₁) h₂) h₃
  exact ⟨_, c, h, hc, trace_sleepQueue h⟩

end Sleep
end Camellia
