import Camellia.Kernel.Rest

namespace Camellia

-- The slots of a process, and what happens to the references when they change.

section Slot

variable {s t : State} {d : Balance} {p : Pid} {i : Fin HANDLE_MAX} {o : Option Hid} {h : Hid} {v : Handle} {env : Env}

-- The references which are gone with what was in a slot.
def slotRef (o : Option Hid) (g : Hid) : ℕ :=
  if o = some g then 1 else 0

theorem handleCloseSlot_did (hs : Sane s) :
    wlp (handleCloseSlot env o) (fun _ t => Did s (-optRef .handle o) t ∧ Fills 0 s t ∧ Falls (slotRef o) s t ∧
      (o = none → t = s)) s := by
  cases o
  case none   =>
    exact wlp_pure.mpr ⟨(Did.refl hs.ok).congr neg_zero.symm, refl_of (Fills 0) s, .refl, fun _ => rfl⟩
  case some h =>
    have hgone : (fun g => if h = g then 1 else 0) = slotRef (some h) := by simp [funext_iff, slotRef]
    refine wlp_post (wlp_and (handleClose_did vfsreqFinishShort_finishes hs)
      (handleClose_falls (s := s) vfsreqFinishShort_fills rfl)) fun _ t hx => ?_
    exact ⟨hx.1, hx.2.1, hgone ▸ hx.2.2, fun h => by contradiction⟩

-- What was in the slot is closed, but it is still there when it is replaced.
theorem wlp_procHandleSet {Q : Unit → State → Prop} (hs : Sane s)
    (hq : ∀ t T x table, s.tables.get T = some x → (∀ v, s.procs.get p = some v → v.handles = some T) →
      t.tables.get T = some table → table i = x i → (∀ j, x j ≠ none → table j = x j) →
      Did s (-optRef .handle (table i)) t → Falls (slotRef (table i)) s t →
      wlp (handleRef o) Q (t.withTables (t.tables.set T (Function.update table i o)))) :
    wlp (procHandleSet env p i o) Q s := by
  simp only [procHandleSet, procTable, wlp_bind, wlp_getProc, wlp_nonNull, wlp_getTable]
  intro v hv T hT x hx
  refine wlp_post (handleCloseSlot_did hs) fun _ t ht => ?_
  obtain ⟨ht, hf, hfall, hsame⟩ := ht
  rw [wlp_setSlot]
  intro table htable
  have hstay (j : Fin HANDLE_MAX) (hj : x j ≠ none) : table j = x j := by
    obtain ⟨w, hw, hsame⟩ := hf.slots T x hx
    obtain rfl := Option.some_inj.mp (htable.symm.trans hw)
    exact hsame j hj
  have hslot : table i = x i := by
    cases ho : x i
    case none =>
      rw [hsame ho, hx, Option.some_inj] at htable
      rw [← htable, ho]
    case some h => rw [hstay i (by simp [ho]), ho]
  refine hq t T x table hx (fun v' hv' => ?_) htable hslot hstay (hslot ▸ ht) (hslot ▸ hfall)
  obtain rfl := Option.some_inj.mp (hv.symm.trans hv')
  exact hT

-- What a slot loses is closed, and its counter falls.
theorem procHandleSet_none_did (hs : Sane s) :
    wlp (procHandleSet env p i none) (fun _ t => Did s 0 t ∧ ∀ v T x, s.procs.get p = some v → v.handles = some T →
      s.tables.get T = some x → Falls (slotRef (x i)) s t ∧
      ∃ table, t.tables.get T = some table ∧ table i = none ∧ ∀ j ≠ i, x j ≠ none → table j = x j) s := by
  refine wlp_procHandleSet hs fun t T x table hx hT htable hslot hstay ht hfall => wlp_pure.mpr ⟨?_, fun v T' x' hv hT' hx' => ?_⟩
  · have hset : Did t (optRef .handle (table i)) (t.withTables (t.tables.set T (Function.update table i none))) := by
      refine ⟨kept_setTable htable (.inl fun j => ?_), ok_withTables ht.ok, ?_, neat_of_eq rfl rfl rfl⟩
      · by_cases hj : j = i
        case pos => exact .inr (by rw [hj, Function.update_self])
        case neg => exact .inl (Function.update_of_ne hj _ _)
      · rw [balance_setSlot htable, optRef_none, sub_zero]
    exact (ht.trans hset).congr (neg_add_cancel _)
  · obtain rfl := Option.some_inj.mp ((hT v hv).symm.trans hT')
    obtain rfl := Option.some_inj.mp (hx.symm.trans hx')
    refine ⟨hslot ▸ ⟨hfall.size, hfall.refs⟩, _, Heap.get_set_self htable, Function.update_self .., fun j hj hn => ?_⟩
    rw [Function.update_of_ne hj, hstay j hn]

-- One more reference to a handle.
theorem Holding.handleRef (hs : Holding s d) :
    wlp (handleRef o) (fun _ t => Holding t (d + optRef .handle o)) s := by
  cases o
  case none   => exact wlp_pure.mpr (hs.congr (add_zero d).symm)
  case some h =>
    rw [Camellia.handleRef, wlp_updHandle]
    intro v hv
    have h0 := hs.tidy.used h v hv
    obtain ⟨k, hk⟩ := hs.balance
    refine ⟨?_, hs.tidy.setHandle hv (fun hz => absurd hz (Nat.succ_ne_zero _)) rfl, k, ?_⟩
    · refine ok_setHandle hs.ok hv rfl (fun _ => ⟨rfl, rfl, id, fun hz => absurd hz h0⟩) (hs.ok.reqs.reqs h v hv) ?_
      exact hs.ok.pipes_set hv rfl rfl rfl rfl rfl fun _ _ => Nat.pos_of_ne_zero h0
    · have hset := balance_setHandle (w := { v with refcount := v.refcount + 1 }) hv
      rw [hset, hk, Handle.weight, Handle.weight, succ_nsmul, optRef_some]
      abel

theorem Holding.withTables {T : Heap Table} (hs : Holding s d) :
    Holding (s.withTables T) (d + (T.total (fun _ => Table.weight) - s.tables.total fun _ => Table.weight)) := by
  obtain ⟨k, hk⟩ := hs.balance
  refine ⟨ok_withTables hs.ok, { hs.tidy with }, k, ?_⟩
  rw [balance_withTables, hk]
  abel

-- A slot gets something else.
theorem procHandleSet_holding (hs : Holding s d) (hd : Firm d) :
    wlp (procHandleSet env p i o) (fun _ t => Holding t d) s := by
  refine wlp_procHandleSet (hs.sane hd) fun t T _ table _ _ htable _ _ ht _ => ?_
  have hset : Holding (t.withTables (t.tables.set T (Function.update table i o))) (d - optRef .handle o) := by
    refine (hs.did ht).withTables.congr ?_
    rw [Heap.total_set htable, Table.weight_update]
    abel
  exact wlp_post hset.handleRef fun _ u hu => hu.congr (sub_add_cancel ..)

end Slot

section Dup

variable {s : State} {d : Balance} {p : Pid} {src dst hid : Int} {flags : Flags} {env : Env}

theorem procHandleDup_holding (hs : Holding s d) (hd : Firm d) :
    wlp (procHandleDup env p src dst flags) (fun _ t => Holding t d) s := by
  rw [procHandleDup, wlp_bind]
  refine wlp_of_readonly procHandleDupSlot_readonly fun x => ?_
  cases x
  case inl ret => exact wlp_pure.mpr hs
  case inr i   =>
    have hset : wlp (do procHandleSet env p i (← procHandleGet p src)) (fun _ t => Holding t d) s := by
      rw [wlp_bind]
      exact wlp_of_readonly procHandleGet_readonly fun _ => procHandleSet_holding hs hd
    simp only [wlp_ite, wlp_bind, wlp_pure] at hset ⊢
    exact ⟨fun _ => hset, fun _ => hs⟩

theorem slotOf_slot {i : Fin HANDLE_MAX} : slotOf ((i : ℕ) : Int) = some i := by
  revert i
  decide

theorem wlp_procHandleDupSlot {i : Fin HANDLE_MAX} {Q : Int ⊕ Fin HANDLE_MAX → State → Prop} (hq : Q (.inr i) s) :
    wlp (procHandleDupSlot p (i : ℕ) 0) Q s := by
  have hdst : ¬(((i : ℕ) : Int) < 0 ∨ Flags.has 0 DUP_SEARCH) := by
    simp [Flags.has]
  rw [procHandleDupSlot, if_neg hdst, slotOf_slot]
  exact wlp_pure.mpr hq

-- A slot is cleared if there is one with this number.
theorem procHandleClose_did (hs : Sane s) : wlp (procHandleClose env p hid) (fun _ t => Did s 0 t) s := by
  rw [procHandleClose, wlp_discard, procHandleDup, wlp_bind]
  refine wlp_of_readonly procHandleDupSlot_readonly fun x => ?_
  cases x
  case inl ret => exact wlp_pure.mpr (.refl hs.ok)
  case inr i   =>
    have hget : procHandleGet p (-1) = pure none := rfl
    have hset := wlp_post (@procHandleSet_none_did s p i env hs) fun _ _ ht => ht.1
    simp only [hget, wlp_ite, wlp_bind, wlp_pure]
    exact ⟨fun _ => hset, fun _ => .refl hs.ok⟩

theorem procHandleClose_slot {i : Fin HANDLE_MAX} (hs : Sane s) :
    wlp (procHandleClose env p (i : ℕ)) (fun _ t => Did s 0 t ∧ ∀ v T x, s.procs.get p = some v → v.handles = some T →
      s.tables.get T = some x → Falls (slotRef (x i)) s t ∧
      ∃ table, t.tables.get T = some table ∧ table i = none ∧ ∀ j ≠ i, x j ≠ none → table j = x j) s := by
  have hget : procHandleGet p (-1) = pure none := rfl
  have hne : ((i : ℕ) : Int) ≠ -1 := by omega
  rw [procHandleClose, wlp_discard, procHandleDup, wlp_bind]
  refine wlp_procHandleDupSlot ?_
  simp only [hget, wlp_ite, wlp_bind, wlp_pure]
  exact ⟨fun _ => procHandleSet_none_did hs, fun h => absurd hne h⟩

end Dup

section Init

variable {s : State} {d : Balance} {p : Pid} {h : Hid} {type : HandleType}

-- A new handle is in its slot.
theorem procHandleInit_holding (hs : Holding s d) :
    wlp (procHandleInit p type) (fun o t => Holding t d ∧ (o = none → t = s) ∧ ∀ i h, o = some (i, h) →
      h = s.handles.size ∧ t.handles = s.handles.alloc { type := type }) s := by
  refine wlp_procHandleInit.mpr fun v T table _ _ htable => ?_
  cases hslot : procFindFreeHandle table 1
  case none   => exact ⟨hs, fun _ => rfl, fun _ _ h => by contradiction⟩
  case some i =>
    refine ⟨?_, fun h => by contradiction, fun j h hj => ?_⟩
    case refine_2 =>
      simp only [Option.some_inj, Prod.mk.injEq] at hj
      exact ⟨hj.2.symm, rfl⟩
    obtain ⟨k, hk⟩ := hs.balance
    let H := s.handles.alloc { type := type }
    have hset : ((s.withHandles H).withTables (s.tables.set T (Function.update table i (some s.handles.size)))).balance =
        (s.withHandles H).balance + _ := balance_setSlot htable
    refine ⟨?_, { hs.tidy.allocHandle (x := { type := type }) Nat.one_ne_zero with }, k, ?_⟩
    · exact ok_withTables (ok_allocHandle hs.ok rfl rfl rfl fun _ _ _ h => by contradiction)
    · rw [hset, balance_allocHandle, hk, procFindFreeHandle_free hslot, Handle.weight]
      simp only [optRef_none, optRef_some, List.map_nil, List.sum_nil, one_nsmul]
      abel

end Init
end Camellia
