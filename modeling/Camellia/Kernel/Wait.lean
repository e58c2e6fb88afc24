import Camellia.Kernel.LastUser
import Camellia.Kernel.Tree

namespace Camellia

-- The process has a child whose death ends its wait.
def Hope (s : State) (p : Pid) (v : Proc) : Prop :=
  ∃ c w, s.procs.get c = some w ∧ w.parent = some p ∧ w.state.alive ∧ w.noreap = false ∧
    (v.awaitedPid = 0 ∨ v.awaitedPid = nsId v.pns c w)

def NoHopelessWait (s : State) : Prop :=
  ∀ p v, s.procs.get p = some v → v.state = .waits4childdeath → Hope s p v

-- A dead child of a live process can be reaped, or nobody will ask for it.
def Buried (s : State) : Prop :=
  ∀ c w q u, s.procs.get c = some w → w.parent = some q → s.procs.get q = some u →
    u.state.alive → w.state.alive = false → w.state = .toreap ∨ w.noreap

structure WaitOk (s : State) : Prop where
  hope   : NoHopelessWait s
  buried : Buried s

-- What must not happen to a process if nobody is to wait for it in vain.
structure Proc.Lives (v w : Proc) : Prop where
  parent  : w.parent = v.parent
  awaited : w.state = .waits4childdeath → w.awaitedPid = v.awaitedPid
  localid : w.localid = v.localid
  alive   : w.state.alive = v.state.alive
  waits   : w.state = .waits4childdeath → v.state = .waits4childdeath
  grave   : v.state = .toreap → w.state = .toreap ∨ w.noreap
  noreap  : v.noreap → w.noreap
  asked   : v.state.alive → w.noreap = v.noreap

structure Lives (s t : State) : Prop where
  procs : ∀ p w, t.procs.get p = some w → ∃ v, s.procs.get p = some v ∧ v.Lives w
  alive : ∀ p v, s.procs.get p = some v → v.state.alive → ∃ w, t.procs.get p = some w

theorem Proc.Lives.refl (v : Proc) : v.Lives v :=
  ⟨rfl, fun _ => rfl, rfl, rfl, id, .inl, id, fun _ => rfl⟩

theorem Proc.Lives.trans {v w x : Proc} (h₁ : v.Lives w) (h₂ : w.Lives x) : v.Lives x where
  parent  := h₂.parent.trans h₁.parent
  awaited := fun h => (h₂.awaited h).trans (h₁.awaited (h₂.waits h))
  localid := h₂.localid.trans h₁.localid
  alive   := h₂.alive.trans h₁.alive
  waits   := h₁.waits ∘ h₂.waits
  grave   := fun h => by
    cases h₁.grave h
    case inl h => exact h₂.grave h
    case inr h => exact .inr (h₂.noreap h)
  noreap  := h₂.noreap ∘ h₁.noreap
  asked   := fun h => (h₂.asked (h₁.alive.trans h)).trans (h₁.asked h)

instance : IsPreorder State Lives where
  refl _ := ⟨fun _ w hw => ⟨w, hw, .refl w⟩, fun _ v hv _ => ⟨v, hv⟩⟩
  trans _ _ _ h₁ h₂ := {
    procs := fun p x hx => by
      have ⟨w, hw, hk⟩ := h₂.procs p x hx
      have ⟨v, hv, hk'⟩ := h₁.procs p w hw
      exact ⟨v, hv, hk'.trans hk⟩
    alive := fun p v hv ha => by
      have ⟨w, hw⟩ := h₁.alive p v hv ha
      have ⟨v', hv', hk⟩ := h₁.procs p w hw
      obtain rfl := Option.some_inj.mp (hv.symm.trans hv')
      exact h₂.alive p w hw (hk.alive.trans ha) }

section Lives

variable {s t : State} {p c : Pid} {v w : Proc}

theorem Peace.lives (h : Peace s t) : Lives s t := by
  refine ⟨fun p w hw => ?_, h.dead⟩
  obtain ⟨v, hv, hk⟩ := h.procs p w hw
  refine ⟨v, hv, ?_, fun _ => ?_, ?_, hk.alive, hk.waits, hk.grave, hk.noreap, hk.asked⟩
  all_goals rw [hk.eq]

theorem respects_lives {x : K α} (h : Respects Peace x) : Respects Lives x :=
  fun s => wlp_post (h s) fun _ _ => Peace.lives

theorem lives_setProc (hv : s.procs.get p = some v) (hk : v.Lives w) :
    Lives s (s.withProcs (s.procs.set p w)) := by
  refine ⟨fun q x hx => ?_, fun q x hx _ => ?_⟩
  · rw [State.withProcs_procs, Heap.get_set hv] at hx
    by_cases hq : q = p
    case pos =>
      rw [if_pos hq, Option.some_inj] at hx
      exact ⟨v, hq ▸ hv, hx ▸ hk⟩
    case neg => exact ⟨x, by simpa [hq] using hx, .refl x⟩
  · rw [State.withProcs_procs, Heap.get_set hv]
    by_cases hq : q = p
    case pos => exact ⟨w, if_pos hq⟩
    case neg => exact ⟨x, (if_neg hq).trans hx⟩

theorem lives_of_eq (hp : t.procs = s.procs) : Lives s t :=
  ⟨fun _ w hw => ⟨w, hp ▸ hw, .refl w⟩, fun _ v hv _ => ⟨v, hp ▸ hv⟩⟩

theorem updProc_lives {f : Proc → Proc} (hf : ∀ v : Proc, v.Lives (f v)) :
    Respects Lives (updProc p f) := by
  intro s
  rw [wlp_updProc]
  exact fun v hv => lives_setProc hv (hf v)

-- A child is not the namespace of its parent.
theorem TreeOk.nsId_child (h : TreeOk s) (hv : s.procs.get p = some v)
    (hw : s.procs.get c = some w) (hp : w.parent = some p) : nsId v.pns c w = w.localid := by
  have hlt : p < c := h.parent c w p hw hp
  have hle : v.pns ≤ p := h.pns p v hv
  rw [nsId, if_neg (Nat.ne_of_gt (lt_of_le_of_lt hle hlt))]

theorem Hope.lives {v' : Proc} (h : Hope s p v) (hl : Lives s t) (ht : TreeOk s) (ht' : TreeOk t)
    (hv : s.procs.get p = some v) (hv' : t.procs.get p = some v')
    (hwaits : v'.state = .waits4childdeath) : Hope t p v' := by
  have ⟨x, hx, hk⟩ := hl.procs p v' hv'
  obtain rfl := Option.some_inj.mp (hv.symm.trans hx)
  obtain ⟨c, w, hw, hparent, halive, hnoreap, hid⟩ := h
  have ⟨w', hw'⟩ := hl.alive c w hw halive
  have ⟨y, hy, hk'⟩ := hl.procs c w' hw'
  obtain rfl := Option.some_inj.mp (hw.symm.trans hy)
  have hparent' : w'.parent = some p := hk'.parent.trans hparent
  refine ⟨c, w', hw', hparent', hk'.alive.trans halive, (hk'.asked halive).trans hnoreap, ?_⟩
  rw [ht'.nsId_child hv' hw' hparent', hk.awaited hwaits, hk'.localid, ← ht.nsId_child hv hw hparent]
  exact hid

theorem Buried.lives (h : Buried s) (hl : Lives s t) : Buried t := by
  intro c w' q u' hw' hq hu' halive hdead
  have ⟨w, hw, hk⟩ := hl.procs c w' hw'
  have ⟨u, hu, hk'⟩ := hl.procs q u' hu'
  cases h c w q u hw (hk.parent ▸ hq) hu (hk'.alive ▸ halive) (hk.alive ▸ hdead)
  case inl h => exact hk.grave h
  case inr h => exact .inr (hk.noreap h)

theorem WaitOk.lives (hs : WaitOk s) (hl : Lives s t) (ht : TreeOk s) (ht' : TreeOk t) : WaitOk t := by
  refine ⟨fun p v' hv' hwaits => ?_, hs.buried.lives hl⟩
  have ⟨v, hv, hk⟩ := hl.procs p v' hv'
  exact (hs.hope p v hv (hk.waits hwaits)).lives hl ht ht' hv hv' hwaits

end Lives

section Kill

variable {s t : State} {env : Env} {p : Pid} {v w : Proc} {ret : Int}

theorem unref_lives {o : Option Cid} : Respects Lives (unref o) := by
  intro s
  refine wlp_post unref_spec fun _ t ht => ?_
  obtain ⟨counts, rfl⟩ := ht.eq
  exact lives_of_eq rfl

theorem procKillHandles_lives : Respects Lives (procKillHandles env p) := by
  have hset : Respects Lives (updProc p ({ · with handles := none })) :=
    updProc_lives fun _ => ⟨rfl, fun _ => rfl, rfl, rfl, id, .inl, id, fun _ => rfl⟩
  have htable : Respects Lives (procKillTable env p) := by
    intro s
    refine wlp_post procKillTable_spec ?_
    rintro _ _ ⟨u, i, w, hu, _, _, rfl⟩
    have hfree : Lives u (u.withTables (u.tables.free i)) := lives_of_eq rfl
    exact trans_of Lives hu.peace.lives hfree
  exact .bind (respects_lives getProc_respects) fun _ => .bind unref_lives fun _ =>
    .ite (.bind htable fun _ => hset) hset

theorem procKillPages_lives : Respects Lives (procKillPages p) := by
  have hset : Respects Lives (updProc p ({ · with pages := none })) :=
    updProc_lives fun _ => ⟨rfl, fun _ => rfl, rfl, rfl, id, .inl, id, fun _ => rfl⟩
  have hfree {d : ℕ} : Respects Lives (freePagedir d) := by
    intro s
    rw [wlp_freePagedir]
    exact fun _ _ => lives_of_eq rfl
  exact .bind (respects_lives getProc_respects) fun v => .bind unref_lives fun _ =>
    .ite (.bind (respects_lives nonNull_respects) fun _ => .bind hfree fun _ => hset) hset

-- A process which is dying is not dead yet.
theorem procKillAlive_lives (hv : s.procs.get p = some v) (ha : v.state.alive) :
    wlp (procKillAlive env p ret) (fun _ t => Lives s t) s := by
  have hc {x : K Unit} (hx : Respects Calm x) : Respects Lives x := respects_lives (respects_peace hx)
  have hbefore : Respects Lives (do
      procKillControlled p
      procKillReqslot p
      procKillPipe p
      procKillTimer p
      procKillHandles env p
      procKillMount p) :=
    .bind (hc procKillControlled_calm) fun _ => .bind (hc procKillReqslot_calm) fun _ =>
      .bind (hc procKillPipe_calm) fun _ => .bind (hc procKillTimer_calm) fun _ =>
      .bind procKillHandles_lives fun _ => hc procKillMount_calm
  have hafter : Respects Lives (do
      updProc p ({ · with deathMsg := ret })
      procKillChildren ((← get).procs.size + 1) (← getProc p).child
      procKillPages p) :=
    .bind (updProc_lives fun _ => ⟨rfl, fun _ => rfl, rfl, rfl, id, .inl, id, fun _ => rfl⟩) fun _ =>
      .bind respects_get fun _ => .bind (respects_lives getProc_respects) fun _ =>
      .bind (respects_lives procKillChildren_peace) fun _ => procKillPages_lives
  have hsplit : procKillAlive env p ret = (do
      (do
        procKillControlled p
        procKillReqslot p
        procKillPipe p
        procKillTimer p
        procKillHandles env p
        procKillMount p)
      procSetstate p .dying
      (do
        updProc p ({ · with deathMsg := ret })
        procKillChildren ((← get).procs.size + 1) (← getProc p).child
        procKillPages p)) := by
    simp [procKillAlive]
  rw [hsplit, wlp_bind]
  refine wlp_post (hbefore s) fun _ t ht => ?_
  rw [wlp_bind, wlp_procSetstate_dying]
  intro w hw _
  obtain ⟨v', hv', hk⟩ := ht.procs p w hw
  obtain rfl := Option.some_inj.mp (hv.symm.trans hv')
  have halive : w.state.alive := hk.alive.trans ha
  have hdying : Lives t (t.withProcs (t.procs.set p { w with state := .dying })) := by
    refine lives_setProc hw ⟨rfl, fun _ => rfl, rfl, halive.symm, by simp, fun hs => ?_, id, fun _ => rfl⟩
    simp [hs, PState.alive] at halive
  exact wlp_of_respects (trans_of Lives ht hdying) hafter

-- Somebody died. Only the parent may still wait for the process.
structure WaitOkBut (s : State) (p : Pid) (w : Proc) : Prop where
  hope   : ∀ q v, s.procs.get q = some v → v.state = .waits4childdeath →
    Hope s q v ∨ w.parent = some q ∧ w.noreap = false ∧ v.Awaits p w
  buried : Buried s

theorem WaitOk.dies {state : PState} (hs : WaitOk s) (hw : s.procs.get p = some w)
    (hd : state.alive = false)
    (hb : state = .toreap ∨ ∀ q u, w.parent = some q → s.procs.get q = some u → ¬u.state.alive) :
    WaitOkBut (s.withProcs (s.procs.set p { w with state := state })) p w := by
  have hget {q : Pid} (hq : q ≠ p) : (s.withProcs (s.procs.set p { w with state := state })).procs.get q
      = s.procs.get q := Heap.get_set_ne hq
  refine ⟨fun q v hv hwaits => ?_, fun c x q u hx hq hu halive hdead => ?_⟩
  · have hqp : q ≠ p := fun h => by
      rw [h, State.withProcs_procs, Heap.get_set_self hw, Option.some_inj] at hv
      subst hv
      simp only at hwaits
      simp [hwaits, PState.alive] at hd
    rw [hget hqp] at hv
    obtain ⟨c, x, hx, hparent, halive, hnoreap, hid⟩ := hs.hope q v hv hwaits
    by_cases hc : c = p
    case pos =>
      obtain rfl := Option.some_inj.mp (hw.symm.trans (hc ▸ hx))
      exact .inr ⟨hparent, hnoreap, hwaits, hc ▸ hid⟩
    case neg => exact .inl ⟨c, x, (hget hc).trans hx, hparent, halive, hnoreap, hid⟩
  · have hqp : q ≠ p := fun h => by
      rw [h, State.withProcs_procs, Heap.get_set_self hw, Option.some_inj] at hu
      subst hu
      simp only at halive
      simp [hd] at halive
    rw [hget hqp] at hu
    by_cases hc : c = p
    case pos =>
      rw [hc, State.withProcs_procs, Heap.get_set_self hw, Option.some_inj] at hx
      subst hx
      cases hb
      case inl h => exact .inl h
      case inr h => exact absurd halive (h q u hq hu)
    case neg => exact hs.buried c x q u ((hget hc).symm.trans hx) hq hu halive hdead

-- Nobody waited for the process.
theorem WaitOkBut.waitOk (hs : WaitOkBut s p w)
    (hn : ∀ q v, w.parent = some q → s.procs.get q = some v → v.state ≠ .waits4childdeath) : WaitOk s := by
  refine ⟨fun q v hv hwaits => ?_, hs.buried⟩
  cases hs.hope q v hv hwaits
  case inl h => exact h
  case inr h => exact absurd hwaits (hn q v h.1 hv)

theorem WaitOk.respects {x : K Unit} (hs : WaitOk s) (ht : TreeOk s) (hp : Respects Peace x)
    (hl : Respects Linked x) : wlp x (fun _ t => WaitOk t) s :=
  wlp_post (wlp_and (hp s) (hl s)) fun _ _ ⟨hp, hl⟩ => hs.lives hp.lives ht (ht.touches hl)

-- If the parent waits for the process, then it is told about its death.
theorem WaitOkBut.tryreap (hs : WaitOkBut s p w)
    (hw : s.procs.get p = some { w with state := .toreap }) (ht : TreeOk s) :
    wlp (procTryreap p) (fun _ t => WaitOk t) s := by
  refine wlp_post (wlp_and (procTryreap_spec hw) (procTryreap_linked s)) ?_
  rintro _ t ⟨⟨hp, hans⟩, hl⟩
  have hl' := hp.lives
  have ht' := ht.touches hl
  refine ⟨fun q v' hv' hwaits => ?_, hs.buried.lives hl'⟩
  have ⟨v, hv, hk⟩ := hl'.procs q v' hv'
  cases hs.hope q v hv (hk.waits hwaits)
  case inl h => exact h.lives hl' ht ht' hv hv' hwaits
  case inr h =>
    obtain ⟨hparent, hnoreap, hawaits⟩ := h
    exact absurd hwaits (hans rfl (by simp [hnoreap]) q v v' hparent hv hawaits hv')

theorem procKillDying_waits {rest : K Unit} (hs : WaitOk s) (ht : TreeOk s)
    (hrest : ∀ t, wlp (procTryreap p) (fun _ u => WaitOk u) t → wlp rest (fun _ u => WaitOk u) t) :
    wlp (do procKillDying p; rest) (fun _ t => WaitOk t) s := by
  have hpeace {t : State} (h : WaitOk t) (ht : TreeOk t) : wlp rest (fun _ u => WaitOk u) t :=
    hrest t (h.respects ht procTryreap_peace procTryreap_linked)
  have hset {state : PState} {w : Proc} (hw : s.procs.get p = some w) :
      TreeOk (s.withProcs (s.procs.set p { w with state := state })) :=
    ht.touches (touches_set (D := fun _ => True) trivial hw ⟨rfl, rfl, rfl, rfl, rfl, rfl, rfl⟩)
  -- Nobody waits for a process without a live parent.
  have htomb {w : Proc} (hw : s.procs.get p = some w)
      (hn : ∀ q u, w.parent = some q → s.procs.get q = some u → ¬u.state.alive) :
      wlp (procSetstate p .tombstone) (fun _ t => wlp rest (fun _ u => WaitOk u) t) s := by
    rw [wlp_procSetstate_tombstone]
    intro w' hw' _
    obtain rfl := Option.some_inj.mp (hw.symm.trans hw')
    refine hpeace ((hs.dies hw rfl (.inr hn)).waitOk fun q v hq hv hwaits => ?_) (hset hw)
    have hqp : q ≠ p := (ht.parent p w q hw hq).ne
    rw [State.withProcs_procs, Heap.get_set_ne hqp] at hv
    exact hn q v hq hv (by simp [hwaits, PState.alive])
  simp only [procKillDying, wlp_bind, wlp_getProc, wlp_ite, wlp_pure]
  refine fun w hw => ⟨fun _ => ?_, fun _ => hpeace hs ht⟩
  cases hparent : w.parent
  case none   => exact htomb hw (by simp [hparent])
  case some q =>
    simp only [wlp_bind, wlp_getProc, wlp_ite]
    refine fun u hu => ⟨fun _ => ?_, fun hdead => htomb hw fun q' u' hq' hu' => ?_⟩
    · refine wlp_procSetstate_toreap fun w' hw' _ _ => ?_
      obtain rfl := Option.some_inj.mp (hw.symm.trans hw')
      exact hrest _ ((hs.dies hw rfl (.inl rfl)).tryreap (Heap.get_set_self hw) (hset hw))
    · obtain rfl := Option.some_inj.mp (hparent.symm.trans hq')
      obtain rfl := Option.some_inj.mp (hu.symm.trans hu')
      exact hdead

theorem procKill_waits (hs : WaitOk s) (ht : TreeOk s) :
    wlp (procKill env p ret) (fun _ t => WaitOk t) s := by
  have hrest {t : State} (hs : WaitOk t) (ht : TreeOk t) : wlp (do
      procKillDying p
      if p = (← get).first then
        procKillFirst p
      else
        procTryreap p) (fun _ u => WaitOk u) t := by
    refine procKillDying_waits hs ht fun t h => ?_
    simp only [wlp_bind, wlp_get, wlp_ite]
    exact ⟨fun _ => wlp_procKillFirst, fun _ => h⟩
  rw [procKill, wlp_bind, wlp_getProc]
  intro v hv
  by_cases ha : v.state.alive
  case pos =>
    rw [if_pos ha, wlp_bind]
    refine wlp_post (wlp_and (procKillAlive_lives hv ha) (procKillAlive_linked s)) fun _ t hx => ?_
    obtain ⟨hl, hk⟩ := hx
    exact hrest (hs.lives hl ht (ht.touches hk)) (ht.touches hk)
  case neg =>
    rw [if_neg ha]
    exact hrest hs ht

end Kill

section Fork

variable {s t : State} {env : Env} {p c : Pid} {flags : Flags}

-- The processes which were there before a birth.
theorem Born.old_proc (hb : Born s p flags c t) {q : Pid} {x : Proc} (hx : t.procs.get q = some x)
    (hq : q ≠ c) : ∃ y, s.procs.get q = some y ∧ x.state = y.state ∧ x.parent = y.parent ∧
      x.noreap = y.noreap ∧ x.awaitedPid = y.awaitedPid ∧ x.localid = y.localid ∧ x.pns = y.pns := by
  cases hy : s.procs.get q
  case none =>
    rw [hb.old q hq hy] at hx
    contradiction
  case some y =>
    obtain ⟨x', z, hx', hz, heq⟩ := hb.procs q y hy
    obtain rfl := Option.some_inj.mp (hx.symm.trans hx')
    refine ⟨y, rfl, ?_, ?_, ?_, ?_, ?_, ?_⟩ <;> rw [heq, hz.eq]

theorem WaitOk.born (hs : WaitOk s) (ht : TreeOk s) (hb : Born s p flags c t) : WaitOk t := by
  obtain ⟨v₀, w₀, _, _, hw₀, hc, hparent₀, _⟩ := hb.child
  refine ⟨fun q v' hv' hwaits => ?_, fun d x' q u' hx' hq hu' halive hdead => ?_⟩
  · have hqc : q ≠ c := fun h => by
      obtain rfl := Option.some_inj.mp (hw₀.symm.trans (h ▸ hv'))
      rw [hc.state] at hwaits
      contradiction
    obtain ⟨v, hv, hstate, _, _, hawaited, _, hpns⟩ := hb.old_proc hv' hqc
    obtain ⟨d, x, hx, hparent, halive, hnoreap, hid⟩ := hs.hope q v hv (hstate ▸ hwaits)
    obtain ⟨x', z, hx', hz, heq⟩ := hb.procs d x hx
    refine ⟨d, x', hx', ?_, ?_, ?_, ?_⟩
    · rw [heq, hz.eq]
      exact hparent
    · rw [heq, hz.eq]
      exact halive
    · rw [heq, hz.eq]
      exact hnoreap
    · have hlocal : x'.localid = x.localid := by rw [heq, hz.eq]
      rw [hawaited, hpns, nsId, hlocal]
      exact hid
  · have hdc : d ≠ c := fun h => by
      obtain rfl := Option.some_inj.mp (hw₀.symm.trans (h ▸ hx'))
      rw [hc.state] at hdead
      contradiction
    obtain ⟨x, hx, hstate, hparent, hnoreap, _⟩ := hb.old_proc hx' hdc
    have hqc : q ≠ c := by
      have hlt : q < d := ht.parent d x q hx (hparent ▸ hq)
      exact hb.fresh ▸ (hlt.trans (Heap.lt_size hx)).ne
    obtain ⟨u, hu, hstate', _⟩ := hb.old_proc hu' hqc
    rw [hstate, hnoreap]
    exact hs.buried d x q u hx (hparent ▸ hq) hu (hstate' ▸ halive) (hstate ▸ hdead)

-- A process which nobody waits for is forgotten.
theorem WaitOk.forget {v : Proc} (hs : WaitOk s) (hv : s.procs.get c = some v)
    (hn : ∀ q w, v.parent = some q → s.procs.get q = some w → w.state ≠ .waits4childdeath) :
    WaitOk (s.withProcs (s.procs.set c { v with noreap := true })) := by
  have hget {q : Pid} {x' : Proc}
      (hx : (s.withProcs (s.procs.set c { v with noreap := true })).procs.get q = some x') :
      ∃ x, s.procs.get q = some x ∧ x' = { x with noreap := x'.noreap } ∧
        (q = c → x'.noreap = true) ∧ (q ≠ c → x' = x) := by
    rw [State.withProcs_procs, Heap.get_set hv] at hx
    by_cases hq : q = c
    case pos =>
      rw [if_pos hq, Option.some_inj] at hx
      subst hx
      exact ⟨v, hq ▸ hv, rfl, fun _ => rfl, fun h => absurd hq h⟩
    case neg => exact ⟨x', by simpa [hq] using hx, rfl, fun h => absurd h hq, fun _ => rfl⟩
  refine ⟨fun q w' hw' hwaits => ?_, fun d x' q u' hx' hq hu' halive hdead => ?_⟩
  · obtain ⟨w, hw, hww, _⟩ := hget hw'
    have hwaits' : w.state = .waits4childdeath := by
      rw [hww] at hwaits
      exact hwaits
    obtain ⟨d, x, hx, hparent, halive, hnoreap, hid⟩ := hs.hope q w hw hwaits'
    have hdc : d ≠ c := fun h => by
      obtain rfl := Option.some_inj.mp (hv.symm.trans (h ▸ hx))
      exact hn q w hparent hw hwaits'
    refine ⟨d, x, (Heap.get_set_ne hdc).trans hx, hparent, halive, hnoreap, ?_⟩
    rw [hww]
    exact hid
  · obtain ⟨x, hx, hxx, hnoreap, hsame⟩ := hget hx'
    obtain ⟨u, hu, huu, _⟩ := hget hu'
    by_cases hd : d = c
    case pos => exact .inr (hnoreap hd)
    case neg =>
      rw [hsame hd] at hq hdead ⊢
      rw [huu] at halive
      exact hs.buried d x q u hx hq hu halive hdead

theorem sysFork_waits (hshares : SharesOk s) (hs : WaitOk s) (ht : TreeOk s) :
    wlp (sysFork env p flags) (fun _ t => WaitOk t) s := by
  refine wlp_sysFork hshares (fun c t u _ hb hc => ?_) fun c t u v _ hb hc hv => ?_
  · exact (hs.born ht hb).lives hc.peace.lives (ht.born hb) ((ht.born hb).touches hc.linked)
  · have htree := (ht.born hb).touches hc.linked
    have hwaits := (hs.born ht hb).lives hc.peace.lives (ht.born hb) htree
    obtain ⟨v₀, w₀, hv₀, hrun, hw₀, _, hparent, _⟩ := hb.child
    have hparent' : v.parent = some p := by
      have ⟨w, hw, hk⟩ := hc.procs.of_get' hv
      obtain rfl := Option.some_inj.mp (hw₀.symm.trans hw)
      rw [hk.eq]
      exact hparent
    have hset : WaitOk (u.withProcs (u.procs.set c { v with noreap := true })) := by
      refine hwaits.forget hv fun q w hq hw hs => ?_
      obtain rfl := Option.some_inj.mp (hparent'.symm.trans hq)
      have ⟨y, hy, hk⟩ := hc.procs.of_get' hw
      have hqc : p ≠ c := hb.fresh ▸ (Heap.lt_size hv₀).ne
      obtain ⟨z, hz, hstate, _⟩ := hb.old_proc hy hqc
      obtain rfl := Option.some_inj.mp (hv₀.symm.trans hz)
      obtain h | ⟨_, _, _, hn⟩ := hk.state
      · rw [hs, hstate, hrun] at h
        contradiction
      · exact hn hs
    have htree' : TreeOk (u.withProcs (u.procs.set c { v with noreap := true })) :=
      htree.touches (touches_set (D := fun _ => True) trivial hv ⟨rfl, rfl, rfl, rfl, rfl, rfl, rfl⟩)
    refine wlp_post (wlp_and (procKill_waits hset htree') (htree'.linked procKill_linked)) ?_
    rintro _ x ⟨hx, hxt⟩ y hy
    exact hx.lives hy.peace.lives hxt (hxt.touches hy.linked)

end Fork

section Wait

variable {s t : State} {D : Pid → Prop} {p c it : Pid} {v w : Proc} {o : Option Pid} {pid : Int}
  {out : ℕ}

-- The processes on a list which is linked by `sibling`.
inductive SiblingChain (s : State) : Option Pid → Pid → Prop
  | here {c : Pid} : SiblingChain s (some c) c
  | next {p c : Pid} {v : Proc} : s.procs.get p = some v → SiblingChain s v.sibling c → SiblingChain s (some p) c

theorem SiblingChain.touches (hc : SiblingChain s o c) (ht : Touches D s t) : SiblingChain t o c := by
  induction hc
  case here => exact .here
  case next hv _ hi =>
    have ⟨w, hw, hk⟩ := ht.procs.of_get hv
    exact .next hw (hk.sibling ▸ hi)

theorem SiblingChain.of_touches (hc : SiblingChain t o c) (ht : Touches D s t) : SiblingChain s o c := by
  induction hc
  case here => exact .here
  case next hw _ hi =>
    have ⟨v, hv, hk⟩ := ht.procs.of_get' hw
    exact .next hv (hk.sibling ▸ hi)

-- The list starts with a child of `p`.
def Starts (s : State) (p : Pid) (o : Option Pid) : Prop :=
  ∀ c w, o = some c → s.procs.get c = some w → w.parent = some p

theorem Starts.sibling (h : TreeOk s) (hs : Starts s p (some it)) (hv : s.procs.get it = some v) :
    Starts s p v.sibling :=
  fun c w hc hw => ((h.sibling it v c hv hc).2 w hw).trans (hs it v rfl hv)

theorem SiblingChain.parent (hc : SiblingChain s o c) (h : TreeOk s) (hs : Starts s p o)
    (hw : s.procs.get c = some w) : w.parent = some p := by
  induction hc
  case here         => exact hs _ w rfl hw
  case next hv _ hi => exact hi (hs.sibling h hv) hw

theorem SiblingChain.lt (hc : SiblingChain s o c) (h : TreeOk s) (hlt : ∀ q, o = some q → q < it) : c < it := by
  induction hc
  case here         => exact hlt _ rfl
  case next hv _ hi => exact hi fun q hq => ((h.sibling _ _ q hv hq).1).trans (hlt _ rfl)

theorem SiblingChain.eq_or_next (hc : SiblingChain s (some it) c) (hv : s.procs.get it = some v) :
    c = it ∨ SiblingChain s v.sibling c := by
  cases hc
  case here       => exact .inl rfl
  case next hx hc =>
    obtain rfl := Option.some_inj.mp (hv.symm.trans hx)
    exact .inr hc

-- What the loop of `_sys_wait2` finds out, and what it does about the children it can reap.
structure Waited (s : State) (p : Pid) (o : Option Pid) (found : Bool) (t : State) : Prop where
  reaped : ∀ c w v', SiblingChain s o c → s.procs.get c = some w → w.state = .toreap → w.noreap = false →
    (∀ v, s.procs.get p = some v → v.Awaits c w) → t.procs.get p = some v' →
    v'.state ≠ .waits4childdeath
  asked  : found → ∃ c w, SiblingChain s o c ∧ s.procs.get c = some w ∧ w.noreap = false
  forgot : ¬found → ∀ c w, SiblingChain s o c → s.procs.get c = some w → w.noreap

theorem waited_none : Waited s p none false s :=
  ⟨fun _ _ _ hc => (nomatch hc), by simp, fun _ _ _ hc => (nomatch hc)⟩

-- The loop skips a child which nobody may ask for.
theorem Waited.skip {found : Bool} (ht : Waited s p v.sibling found t)
    (hv : s.procs.get it = some v) (hn : v.noreap) : Waited s p (some it) found t := by
  refine ⟨fun c w v' hc hw hr hnr => ?_, fun hf => ?_, fun hf c w hc hw => ?_⟩
  · cases hc.eq_or_next hv
    case inl h =>
      obtain rfl := Option.some_inj.mp (hv.symm.trans (h ▸ hw))
      rw [hn] at hnr
      contradiction
    case inr hc => exact ht.reaped c w v' hc hw hr hnr
  · obtain ⟨c, w, hc, hw, hnr⟩ := ht.asked hf
    exact ⟨c, w, .next hv hc, hw, hnr⟩
  · cases hc.eq_or_next hv
    case inl h =>
      obtain rfl := Option.some_inj.mp (hv.symm.trans (h ▸ hw))
      exact hn
    case inr hc => exact ht.forgot hf c w hc hw

-- A child which still lives.
theorem Waited.live {found : Bool} (ht : Waited s p v.sibling found t)
    (hv : s.procs.get it = some v) (hn : v.noreap = false) (hd : v.state ≠ .toreap) :
    Waited s p (some it) true t := by
  refine ⟨fun c w v' hc hw hr hnr => ?_, fun _ => ⟨it, v, .here, hv, hn⟩, by simp⟩
  cases hc.eq_or_next hv
  case inl h =>
    obtain rfl := Option.some_inj.mp (hv.symm.trans (h ▸ hw))
    exact absurd hr hd
  case inr hc => exact ht.reaped c w v' hc hw hr hnr

-- A child which can be reaped. If it is not the one the process waits for, then the rest of the list
-- stays as it was.
theorem Waited.reap {u : State} {w : Proc} {found : Bool} (h : TreeOk s) (hv : s.procs.get it = some v)
    (hn : v.noreap = false) (hparent : v.parent = some p) (hs : Starts s p v.sibling)
    (htouch : Touches (fun q => q = it ∨ q = p) s u) (hpeace : Peace s u) (hans : Answered s it v u)
    (hw : u.procs.get it = some w) (ht : Waited u p w.sibling found t) (hpeace' : Peace u t) :
    Waited s p (some it) true t := by
  have ⟨v₁, hv₁, hk⟩ := htouch.procs.of_get' hw
  obtain rfl := Option.some_inj.mp (hv.symm.trans hv₁)
  refine ⟨fun c x v' hc hx hr hnr hawaits hv' hwaits => ?_, fun _ => ⟨it, v, .here, hv, hn⟩, by simp⟩
  have ⟨y, hy, hky⟩ := hpeace'.procs p v' hv'
  have ⟨z, hz, hkz⟩ := hpeace.procs p y hy
  cases hc.eq_or_next hv
  case inl heq =>
    subst heq
    obtain rfl := Option.some_inj.mp (hv.symm.trans hx)
    exact hans p z y hparent hz (hawaits z hz) hy (hky.waits hwaits)
  case inr hc =>
    have hlt : c < it := hc.lt h fun q hq => (h.sibling it v q hv hq).1
    have hgt : p < c := h.parent c x p hx (hc.parent h hs hx)
    have hsame : u.procs.get c = some x :=
      (htouch.same c fun hd => hd.elim (fun h => absurd hlt (h ▸ lt_irrefl _))
        fun h => absurd hgt (h ▸ lt_irrefl _)).trans hx
    refine ht.reaped c x v' (hk.sibling ▸ hc.touches htouch) hsame hr hnr (fun y' hy' => ?_) hv' hwaits
    obtain rfl := Option.some_inj.mp (hy.symm.trans hy')
    have ⟨z', hz', hkin⟩ := htouch.procs.of_get' hy
    obtain rfl := Option.some_inj.mp (hz.symm.trans hz')
    have hawaited : y.awaitedPid = z.awaitedPid := by rw [hkz.eq]
    refine ⟨hky.waits hwaits, ?_⟩
    rw [hawaited, hkin.pns]
    exact (hawaits z hz).2

theorem sysWait2Loop_spec {fuel : ℕ} (h : TreeOk s) (hs : Starts s p o) :
    wlp (sysWait2Loop fuel o) (fun found t => Waited s p o found t) s := by
  induction fuel generalizing s o
  case zero =>
    cases o
    case none    => exact wlp_pure.mpr waited_none
    case some it => exact wlp_throw.mpr trivial
  case succ fuel hi =>
    cases o
    case none    => exact wlp_pure.mpr waited_none
    case some it =>
      simp only [sysWait2Loop, wlp_bind, wlp_getProc, wlp_ite]
      intro v hv
      have hparent : v.parent = some p := hs it v rfl hv
      refine ⟨fun hn => ?_, fun hn => ⟨fun hd => ?_, fun hd v₁ hv₁ => ?_⟩⟩
      · exact wlp_post (hi h (hs.sibling h hv)) fun found t ht => ht.skip hv hn
      · have htouch := procTryreap_touches (D := fun q => q = it ∨ q = p) hv (.inl rfl)
          fun q hq => .inr (Option.some_inj.mp (hq.symm.trans hparent))
        refine wlp_post (wlp_and (procTryreap_spec hv) htouch) ?_
        rintro _ u ⟨⟨hpeace, hans⟩, htouch⟩ w hw
        obtain ⟨v₁, hv₁, hk⟩ := htouch.procs.of_get' hw
        obtain rfl := Option.some_inj.mp (hv.symm.trans hv₁)
        have hu := h.touches htouch
        have hstart : Starts u p (some it) := fun c x hc hx => by
          obtain rfl := Option.some_inj.mp hc
          obtain rfl := Option.some_inj.mp (hw.symm.trans hx)
          exact hk.parent.trans hparent
        refine wlp_post (wlp_and (hi hu (hstart.sibling hu hw)) (sysWait2Loop_peace u)) ?_
        rintro found t ⟨ht, hpeace'⟩
        exact wlp_pure.mpr (ht.reap h hv (by simpa using hn) hparent (hs.sibling h hv) htouch hpeace
          (hans hd hn) hw hpeace')
      · obtain rfl := Option.some_inj.mp (hv.symm.trans hv₁)
        refine wlp_post (hi h (hs.sibling h hv)) fun found t ht => wlp_pure.mpr ?_
        exact ht.live hv (by simpa using hn) hd

-- A child of a process which could end its wait for `pid`, now or when it dies.
def State.CanReap (s : State) (p : Pid) (pid : Int) : Prop :=
  ∃ v c w, s.procs.get p = some v ∧ SiblingChain s v.child c ∧ s.procs.get c = some w ∧ w.noreap = false ∧
    (w.state.alive ∨ w.state = .toreap) ∧ (pid ≤ 0 ∨ pid = nsId v.pns c w)

-- Nobody waits for a child which does not exist, unless there is no child to wait for at all.
def Sensible (s : State) : Entry → Prop
  | .syscall p (.wait2 pid flags _) => flags = 0 → pid ≤ 0 ∨ s.CanReap p pid ∨
    ∀ v c w, s.procs.get p = some v → SiblingChain s v.child c → s.procs.get c = some w → w.noreap
  | _                               => True

-- The state in which the loop of `_sys_wait2` starts.
def State.waiting (s : State) (p : Pid) (v : Proc) (pid : Int) (out : ℕ) : State :=
  s.withProcs (s.procs.set p
    { v with state := .waits4childdeath, awaitedPid := pid.toNat, awaitedOut := out })

theorem touches_waiting (pid : Int) (out : ℕ) (hv : s.procs.get p = some v) : Linked s (s.waiting p v pid out) :=
  touches_set trivial hv ⟨rfl, rfl, rfl, rfl, rfl, rfl, rfl⟩

theorem get_waiting (hv : s.procs.get p = some v) (hrun : v.state = .running) {q : Pid} {x' : Proc}
    (hx : (s.waiting p v pid out).procs.get q = some x') :
    ∃ x, s.procs.get q = some x ∧ x'.parent = x.parent ∧ x'.noreap = x.noreap ∧
      x'.localid = x.localid ∧ x'.pns = x.pns ∧ x'.state.alive = x.state.alive ∧
      (x'.state = .toreap ↔ x.state = .toreap) ∧ (q ≠ p → x' = x) := by
  rw [State.waiting, State.withProcs_procs, Heap.get_set hv] at hx
  by_cases hq : q = p
  case pos =>
    rw [if_pos hq, Option.some_inj] at hx
    subst hx
    refine ⟨v, hq ▸ hv, rfl, rfl, rfl, rfl, by simp [hrun, PState.alive], by simp [hrun], ?_⟩
    exact fun h => absurd hq h
  case neg => exact ⟨x', by simpa [hq] using hx, rfl, rfl, rfl, rfl, rfl, Iff.rfl, fun _ => rfl⟩

-- The others have as much hope as before.
theorem WaitOk.hope_waiting (hs : WaitOk s) (hv : s.procs.get p = some v) (hrun : v.state = .running)
    {q : Pid} {x : Proc} (hq : q ≠ p) (hx : (s.waiting p v pid out).procs.get q = some x)
    (hwaits : x.state = .waits4childdeath) : Hope (s.waiting p v pid out) q x := by
  obtain ⟨y, hy, _, _, _, _, _, _, hsame⟩ := get_waiting hv hrun hx
  obtain rfl := hsame hq
  obtain ⟨c, w, hw, hparent, halive, hnoreap, hid⟩ := hs.hope q x hy hwaits
  have ⟨w', hw', _⟩ := (touches_waiting pid out hv).procs.of_get hw
  obtain ⟨z, hz, hzparent, hznoreap, hzlocal, _, hzalive, _⟩ := get_waiting hv hrun hw'
  obtain rfl := Option.some_inj.mp (hw.symm.trans hz)
  refine ⟨c, w', hw', hzparent.trans hparent, hzalive.trans halive, hznoreap.trans hnoreap, ?_⟩
  rw [nsId, hzlocal]
  exact hid

theorem Buried.waiting (h : Buried s) (hv : s.procs.get p = some v) (hrun : v.state = .running) :
    Buried (s.waiting p v pid out) := by
  intro c w' q u' hw' hq hu' halive hdead
  obtain ⟨w, hw, hparent, hnoreap, _, _, halive', htoreap, _⟩ := get_waiting hv hrun hw'
  obtain ⟨u, hu, _, _, _, _, halive'', _⟩ := get_waiting hv hrun hu'
  rw [hnoreap, htoreap]
  exact h c w q u hw (hparent ▸ hq) hu (halive'' ▸ halive) (halive' ▸ hdead)

-- If the loop finds a child, and the process could reap it or it sleeps on, then there is hope.
theorem Waited.hope {found : Bool} {u : State} {x' : Proc} {c : Pid} {w : Proc} (ht : TreeOk s)
    (hv : s.procs.get p = some v) (hrun : v.state = .running)
    (hw : Waited (s.waiting p v pid out) p v.child found u) (hx' : u.procs.get p = some x')
    (hwaits : x'.state = .waits4childdeath) (hc : SiblingChain s v.child c) (hcw : s.procs.get c = some w)
    (hnoreap : w.noreap = false) (hstate : w.state.alive ∨ w.state = .toreap)
    (hid : pid ≤ 0 ∨ pid = nsId v.pns c w) :
    Hope (s.waiting p v pid out) p
      { v with state := .waits4childdeath, awaitedPid := pid.toNat, awaitedOut := out } := by
  have hlink := touches_waiting pid out hv
  have ⟨w', hw', _⟩ := hlink.procs.of_get hcw
  obtain ⟨z, hz, hzparent, hznoreap, hzlocal, _, hzalive, hztoreap, _⟩ := get_waiting hv hrun hw'
  obtain rfl := Option.some_inj.mp (hcw.symm.trans hz)
  have hstart : Starts s p v.child := fun d y hd hy => (ht.child p v d hv hd).2 y hy
  have hawaited : pid.toNat = 0 ∨ pid.toNat = nsId v.pns c w' := by
    rw [nsId, hzlocal]
    cases hid
    case inl h => exact .inl (Int.toNat_eq_zero.mpr h)
    case inr h => exact .inr (by rw [h]; rfl)
  cases hstate
  case inl h =>
    exact ⟨c, w', hw', hzparent.trans (hc.parent ht hstart hcw), hzalive.trans h,
      hznoreap.trans hnoreap, hawaited⟩
  case inr h =>
    refine absurd hwaits (hw.reaped c w' x' (hc.touches hlink) hw' (hztoreap.mpr h)
      (hznoreap.trans hnoreap) (fun y hy => ?_) hx')
    obtain rfl := Option.some_inj.mp ((Heap.get_set_self hv).symm.trans hy)
    exact ⟨rfl, hawaited⟩

-- Which of the children the loop has found.
theorem Waited.canReap {found : Bool} {u : State} (hs : WaitOk s) (ht : TreeOk s)
    (hv : s.procs.get p = some v) (hrun : v.state = .running)
    (hsens : Sensible s (.syscall p (.wait2 pid 0 out)))
    (hw : Waited (s.waiting p v pid out) p v.child found u) (hfound : found) : s.CanReap p pid := by
  obtain ⟨c, w', hc, hw', hnoreap⟩ := hw.asked hfound
  have hc' : SiblingChain s v.child c := hc.of_touches (touches_waiting pid out hv)
  obtain ⟨w, hcw, _, hznoreap, _⟩ := get_waiting hv hrun hw'
  have hstart : Starts s p v.child := fun d y hd hy => (ht.child p v d hv hd).2 y hy
  obtain hpid | hcan | hnone := hsens rfl
  · refine ⟨v, c, w, hv, hc', hcw, hznoreap ▸ hnoreap, ?_, .inl hpid⟩
    by_cases halive : w.state.alive
    case pos => exact .inl halive
    case neg =>
      have hparent := hc'.parent ht hstart hcw
      cases hs.buried c w p v hcw hparent hv (by simp [hrun, PState.alive]) (by simpa using halive)
      case inl h => exact .inr h
      case inr h =>
        rw [hznoreap, h] at hnoreap
        contradiction
  · exact hcan
  · have := hnone v c w hv hc' hcw
    rw [hznoreap, this] at hnoreap
    contradiction

theorem starts_waiting (ht : TreeOk s) (hv : s.procs.get p = some v) :
    Starts (s.waiting p v pid out) p v.child := fun c w hc hw => by
  have ⟨x, hx, hk⟩ := (touches_waiting pid out hv).procs.of_get' hw
  exact hk.parent.trans ((ht.child p v c hv hc).2 x hx)

theorem sysWait2_waits {flags : Flags} (hs : WaitOk s) (ht : TreeOk s)
    (hsens : Sensible s (.syscall p (.wait2 pid flags out))) :
    wlp (sysWait2 p pid flags out) (fun _ t => WaitOk t) s := by
  refine wlp_sysWait2 (fun _ t hc => hs.lives hc.peace.lives ht (ht.touches hc.linked)) fun v hv hrun hflags => ?_
  subst hflags
  have hset := touches_waiting pid out hv
  have htree := ht.touches hset
  refine wlp_post (wlp_and (sysWait2Loop_spec htree (starts_waiting ht hv))
    (wlp_and (sysWait2Loop_peace _) (sysWait2Loop_linked _))) ?_
  rintro found u ⟨hw, hp, hl⟩
  cases found
  case true =>
    refine ⟨fun q x' hx' hwaits => ?_, (hs.buried.waiting hv hrun).lives hp.lives⟩
    have ⟨x, hx, hk⟩ := hp.lives.procs q x' hx'
    have hope : Hope (s.waiting p v pid out) q x := by
      by_cases hq : q = p
      case neg => exact hs.hope_waiting hv hrun hq hx (hk.waits hwaits)
      case pos =>
        subst hq
        obtain rfl := Option.some_inj.mp ((Heap.get_set_self hv).symm.trans hx)
        obtain ⟨v', c, w, hv', hc, hcw, hnoreap, hstate, hid⟩ := hw.canReap hs ht hv hrun hsens rfl
        obtain rfl := Option.some_inj.mp (hv.symm.trans hv')
        exact hw.hope ht hv hrun hx' hwaits hc hcw hnoreap hstate hid
    exact hope.lives hp.lives htree (htree.touches hl) hx hx' hwaits
  case false =>
    have hset : Lives s (s.withProcs (s.procs.set p
        { v with state := .running, awaitedPid := pid.toNat, awaitedOut := out, rax := -ECHILD })) := by
      refine lives_setProc hv ⟨rfl, by simp, rfl, ?_, by simp, ?_, id, fun _ => rfl⟩
      all_goals simp [hrun, PState.alive]
    have hlink : Linked s (s.withProcs (s.procs.set p
        { v with state := .running, awaitedPid := pid.toNat, awaitedOut := out, rax := -ECHILD })) :=
      touches_set trivial hv ⟨rfl, rfl, rfl, rfl, rfl, rfl, rfl⟩
    exact hs.lives hset ht (ht.touches hlink)

-- If there is nobody to wait for, then the process is told so.
theorem sysWait2_echild (hs : WaitOk s) (ht : TreeOk s)
    (hsens : Sensible s (.syscall p (.wait2 pid 0 out))) (hn : ¬s.CanReap p pid) :
    wlp (sysWait2 p pid 0 out) (fun _ t => t.returned p = some (-ECHILD)) s := by
  refine wlp_sysWait2 (fun h => absurd rfl h) fun v hv hrun _ => ?_
  have htree := ht.touches (touches_waiting pid out hv)
  refine wlp_post (sysWait2Loop_spec htree (starts_waiting ht hv)) fun found u hw => ?_
  cases found
  case true  => exact absurd (hw.canReap hs ht hv hrun hsens rfl) hn
  case false => simp [State.returned, Heap.get_set_self hv]

end Wait

section Run

variable {s t : State} {e : Entry} {paths : List (List UInt8)}

theorem Step.waits (hstep : Step s e t) (hshares : SharesOk s) (htimer : TimerOk s) (ht : TreeOk s)
    (hs : WaitOk s) (hsens : Sensible s e) : WaitOk t := by
  refine hstep.of_wlp (R := fun t => TreeOk t → WaitOk t) (fun env => ?_) (hstep.tree hshares ht)
  refine wlp_enter htimer (fun _ t hp ht' => ?_) (fun p ret _ => ?_) (fun p flags _ => ?_) fun p pid flags out he => ?_
  · exact hs.lives hp.lives ht ht'
  · exact wlp_post (procKill_waits hs ht) fun _ _ h _ => h
  · exact wlp_post (sysFork_waits hshares hs ht) fun _ _ h _ => h
  · subst he
    exact wlp_post (sysWait2_waits hs ht hsens) fun _ _ h _ => h

theorem treeOk_bootState : TreeOk (bootState paths) := by
  refine ⟨fun p v q hv hq => ?_, fun p v q hv hq => ?_, fun p v q hv hq => ?_, fun p v hv => ?_⟩
  all_goals obtain ⟨rfl, _, rfl⟩ := bootState_proc hv
  · simp [procInit] at hq
  · simp [procInit] at hq
  · simp [procInit] at hq
  · exact le_rfl

theorem waitOk_bootState : WaitOk (bootState paths) := by
  refine ⟨fun p v hv hs => ?_, fun c w q u hw hq => ?_⟩
  · obtain ⟨_, _, rfl⟩ := bootState_proc hv
    simp [procInit] at hs
  · obtain ⟨_, _, rfl⟩ := bootState_proc hw
    simp [procInit] at hq

theorem Run.waits (hr : Run Sensible paths s) : TreeOk s ∧ WaitOk s := by
  have : SharesOk s ∧ TimerOk s ∧ TreeOk s ∧ WaitOk s := by
    refine hr.invariant (I := fun s => SharesOk s ∧ TimerOk s ∧ TreeOk s ∧ WaitOk s)
      ⟨sharesOk_bootState, timerOk_bootState, treeOk_bootState, waitOk_bootState⟩ ?_
    rintro s e t ⟨hshares, htimer, ht, hs⟩ hsens hstep
    have ⟨hshares', htimer', _⟩ := hstep.users hshares htimer
    exact ⟨hshares', htimer', hstep.tree hshares ht, hstep.waits hshares htimer ht hs hsens⟩
  exact this.2.2

-- The wait of a process can end in every state of such a run, and `_sys_wait2` does not even begin to
-- wait if there is nobody to wait for.
theorem run_noHopelessWait (hr : Run Sensible paths s) :
    NoHopelessWait s ∧ ∀ p pid out t, Sensible s (.syscall p (.wait2 pid 0 out)) →
      ¬s.CanReap p pid →
      Step s (.syscall p (.wait2 pid 0 out)) t → t.returned p = some (-ECHILD) := by
  have ⟨ht, hs⟩ := hr.waits
  exact ⟨hs.hope, fun p pid out t hsens hn hstep => hstep.of_wlp fun _ => sysWait2_echild hs ht hsens hn⟩

-- The first process has a child.
def forked : State :=
  match enter quietEnv (.syscall 0 (.fork 0)) (bootState [[]]) with
  | .ok (_, s) => s
  | .error _   => {}

theorem step_forked : Step (bootState [[]]) (.syscall 0 (.fork 0)) forked :=
  ⟨⟨_, rfl, rfl⟩, quietEnv, rfl⟩

-- It waits for this child, whose id is 2.
theorem run_noHopelessWait_forked : ∃ t, Step forked (.syscall 0 (.wait2 2 0 0)) t ∧
    (t.procs.get 0).map Proc.state = some .waits4childdeath ∧ NoHopelessWait t := by
  have hrun : ∃ t, enter quietEnv (.syscall 0 (.wait2 2 0 0)) forked = .ok ((), t) ∧
      (t.procs.get 0).map Proc.state = some .waits4childdeath := ⟨_, rfl, rfl⟩
  have ⟨t, hrun, hwaits⟩ := hrun
  have hstep : Step forked (.syscall 0 (.wait2 2 0 0)) t := ⟨⟨_, rfl, rfl⟩, quietEnv, hrun⟩
  have hsens : Sensible forked (.syscall 0 (.wait2 2 0 0)) :=
    fun _ => .inr (.inl ⟨_, 1, _, rfl, .here, rfl, rfl, .inl rfl, .inr rfl⟩)
  have hfork : Sensible (bootState [[]]) (.syscall 0 (.fork 0)) := trivial
  have hr : Run Sensible [[]] t := .step (.step .boot hfork step_forked) hsens hstep
  exact ⟨t, hstep, hwaits, (run_noHopelessWait hr).1⟩

-- It waits for a process which does not exist, and nobody can wake it up.
theorem forked_hopelessWait : ¬forked.CanReap 0 7 ∧ ∃ t, Reachable [[]] t ∧
    Step forked (.syscall 0 (.wait2 7 0 0)) t ∧
    (t.procs.get 0).map Proc.state = some .waits4childdeath ∧ ¬NoHopelessWait t := by
  refine ⟨?_, ?_⟩
  · rintro ⟨v, c, w, hv, hc, hw, _, _, hid⟩
    obtain rfl := Option.some_inj.mp ((show forked.procs.get 0 = some _ from rfl).symm.trans hv)
    have hone : forked.procs.get 1 = some _ := rfl
    cases hc.eq_or_next hone
    case inl h =>
      subst h
      obtain rfl := Option.some_inj.mp (hone.symm.trans hw)
      exact absurd hid (by decide)
    case inr h => cases h
  · have hrun : ∃ t v w, enter quietEnv (.syscall 0 (.wait2 7 0 0)) forked = .ok ((), t) ∧
        t.procs.size = 2 ∧ t.procs.get 0 = some v ∧ v.state = .waits4childdeath ∧
        v.awaitedPid = 7 ∧ v.pns = 0 ∧ v.parent = none ∧ t.procs.get 1 = some w ∧ w.localid = 2 :=
      ⟨_, _, _, rfl, rfl, rfl, rfl, rfl, rfl, rfl, rfl, rfl⟩
    have ⟨t, v, w, hrun, hsize, hv, hwaits, hawaited, hpns, hparent, hw, hlocal⟩ := hrun
    have hstep : Step forked (.syscall 0 (.wait2 7 0 0)) t := ⟨⟨_, rfl, rfl⟩, quietEnv, hrun⟩
    refine ⟨t, .step (.step .boot trivial step_forked) trivial hstep, hstep, ?_, fun h => ?_⟩
    · rw [hv, Option.map_some, hwaits]
    · obtain ⟨c, x, hx, hp, _, _, hid⟩ := h 0 v hv hwaits
      have hc : c < 2 := hsize ▸ Heap.lt_size hx
      rw [hawaited, hpns] at hid
      obtain rfl | rfl : c = 0 ∨ c = 1 := by omega
      · obtain rfl := Option.some_inj.mp (hv.symm.trans hx)
        rw [hparent] at hp
        contradiction
      · obtain rfl := Option.some_inj.mp (hw.symm.trans hx)
        simp [nsId, hlocal] at hid

end Run

end Camellia
