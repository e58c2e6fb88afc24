import Camellia.Cmd.Net.Within

namespace Camellia.Net

-- No record is used or freed once `fragmented_free` has released it.
def Live (x : NetM PUnit) (s : Stack) : Prop :=
  match x { s with stale := false } with
  | .ok (_, t) => t.stale = false
  | .error f   => f ≠ .stale

theorem live_iff {x : NetM PUnit} {s : Stack} :
    Live x s ↔ wp x (fun _ t => t.stale = false) (· ≠ .stale) { s with stale := false } := by
  rw [Live, wp_iff]
  cases x { s with stale := false } <;> rfl

section Protocols

variable {s : Stack} {buf payload : List UInt8} {i n a b len : ℕ} {ip : Packet} {E : NetFault → Prop}
variable (ho : E .overread) (hu : E .underflow)

section
include ho

theorem raises_load8 : Raises E (load8 buf i) := fun s => by
  rw [wp_load8]
  split <;> trivial

theorem raises_load16 : Raises E (load16 buf i) := fun s => by
  rw [wp_load16]
  split <;> trivial

theorem raises_load32 : Raises E (load32 buf i) := fun s => by
  rw [wp_load32]
  split <;> trivial

theorem raises_copy : Raises E (copy buf i n) := fun s => by
  rw [wp_copy]
  split <;> trivial

theorem raises_icmpParse : Raises E (icmpParse buf len ip) :=
  .ite raises_pure <| .bind (raises_load8 ho) fun _ => .bind raises_get fun _ =>
    .ite (.bind (raises_copy ho) fun _ _ => wp_icmpSend) raises_pure

theorem raises_tcpReceived : Raises E (tcpReceived buf len ip) :=
  .ite raises_pure <| .bind (raises_load16 ho) fun _ => .bind (raises_load16 ho) fun _ => .bind (raises_load32 ho) fun _ =>
    .bind (raises_load32 ho) fun _ => .bind (raises_load16 ho) fun _ =>
      .ite raises_pure (.bind (raises_copy ho) fun _ => raises_modify)

end

include ho hu

theorem raises_udpArrived : Raises E (udpArrived buf len ip) := by
  refine .bind (raises_load16 ho) fun _ => .bind (raises_load16 ho) fun _ => .bind raises_get fun _ => .ite ?_ ?_
  · refine .bind (fun s => ?_) fun _ => .bind (raises_copy ho) fun _ => raises_modify
    rw [wp_lengthSub]
    split <;> trivial
  · exact .bind raises_modify fun _ => .bind (raises_copy ho) fun _ _ => wp_icmpSend

-- What the protocols do with a datagram goes wrong only about its bytes.
theorem raises_ipv4Dispatch : Raises E (ipv4Dispatch buf len ip) := by
  refine .bind raises_modify fun _ => ?_
  split
  · exact raises_icmpParse ho
  · exact raises_tcpReceived ho
  · exact raises_udpArrived ho hu
  · exact raises_pure

end Protocols

section Tryinsert

variable {s : Stack} {payload : List UInt8} {plen i : ℕ} {inc : Fragmented} {ip : Packet}

-- The loop always looks at the fragment behind which it has freed the record.
theorem wp_dispatch_live {buf : List UInt8} (h : s.incs.get i = some inc) :
    wp (ipv4Dispatch buf buf.length ip) (fun _ => wp (fragmentedFree i)
      (fun _ => wp (follow i) (fun _ t => t.stale = false) (· ≠ .stale)) (· ≠ .stale)) (· ≠ .stale) s ↔
      ¬(ip.proto = 0x11 → DatagramFits s.udp buf buf.length ip) := by
  by_cases hf : ip.proto = 0x11 → DatagramFits s.udp buf buf.length ip
  case pos =>
    have ⟨_, t, hr, _⟩ := wp_false_iff.mp ((wp_ipv4Dispatch (E := fun _ => False) id id le_rfl).mpr hf)
    have ht := wlp_of_ok hr ipv4Dispatch_dispatched
    rw [wp_iff_of_ok hr, wp_freed (ht.incs ▸ h)]
    split <;> simpa using hf
  case neg =>
    refine iff_of_true (wp_of_forall (fun _ t hr => ?_) fun f hr => ?_) hf
    · exact absurd ((wp_ipv4Dispatch (E := fun _ => False) id id le_rfl).mp ((wp_iff_of_ok hr).mpr trivial)) hf
    · exact (raises_ipv4Dispatch (E := (· ≠ .stale)) nofun nofun).of_error hr

-- The step to the next fragment comes after the record was freed whenever a datagram is completed (unless
-- its bytes were left before).
theorem fragmentedTryinsert_live_iff (r : NetRun s) :
    Live (fragmentedTryinsert payload plen ip) s ↔ ¬(FragmentFits s payload plen ip ∧ Finishes s payload plen ip) := by
  have hs : Stack.Ok { s with stale := false } := r.ok.congr rfl rfl
  have hi : Stack.inserted { s with stale := false } payload plen ip = s.inserted payload plen ip := rfl
  rw [live_iff]
  cases hfs : s.inserted payload plen ip
  case none =>
    obtain ⟨t, ht, hw⟩ := wp_fragmentedTryinsert_of_none hs (hi.trans hfs)
    rw [hw]
    exact iff_of_true ht fun h => by simp [Finishes, hfs] at h
  case some fs =>
    obtain ⟨u, h, hu, hw⟩ := wp_fragmentedTryinsert_of_some hs (hi.trans hfs)
    rw [hw, fragmentFits_iff hfs, finishes_iff hfs]
    by_cases hp : plen ≤ payload.length
    case neg => simp [hp]
    by_cases hz : ip.off = 0 → ip.hlen ≤ ip.header.length
    case neg => simp [hp, hz]
    rw [if_pos hp, if_pos hz]
    cases hv : verdict fs
    case wait    => exact iff_of_true hu.stale (by simp)
    case discard => exact iff_of_true hu.stale (by simp)
    case finish  =>
      obtain ⟨inc, hg⟩ := hu.live
      dsimp only
      rw [wp_dispatch_live hg, hu.fits]
      exact ⟨fun hd h => hd (h.left.right.right rfl), fun h hd => h ⟨⟨hp, hz, fun _ => hd⟩, rfl⟩⟩

-- The header of a fragment, from 7 to 9.
def fragmentHeader (fraginfo : ℕ) : Packet :=
  packet (ipv4Header 7 9 0 0 28 fraginfo 0) ⟨[], [], ET_IPv4⟩

-- The second fragment begins inside of the first one, and both of them are freed.
theorem fragmentedTryinsert_live_iff_overlap : ∃ s f g, NetRun s ∧
    s.inserted (List.replicate 8 1) 8 (fragmentHeader 0x2001) = some [f, g] ∧ verdict [f, g] = .discard ∧
    Live (fragmentedTryinsert (List.replicate 8 1) 8 (fragmentHeader 0x2001)) s := by
  let f : Fragment := ⟨0, false, List.replicate 16 1⟩
  let g : Fragment := ⟨8, false, List.replicate 8 1⟩
  have hd : (match etherParse (etherFrame [] [] ET_IPv4 (ipv4Header 7 9 0 0 36 0x2000 0 ++ List.replicate 16 1))
        (.init [] 9 fun _ => true) with
      | .ok (_, t) => decide (t.inserted (List.replicate 8 1) 8 (fragmentHeader 0x2001) = some [f, g])
      | .error _   => false) = true := by decide +kernel
  split at hd
  case h_1 t ht =>
    have hi := of_decide_eq_true hd
    have hr : NetRun t := .frame .init ht
    refine ⟨t, f, g, hr, hi, by decide, (fragmentedTryinsert_live_iff hr).mpr fun hf => ?_⟩
    obtain ⟨_, fs, hfs, hv⟩ := hf
    obtain rfl := Option.some.inj (hi.symm.trans hfs)
    exact absurd hv (by decide)
  case h_2 => exact absurd hd Bool.false_ne_true

-- The two fragments of a datagram which arrive in their order.
theorem not_live_completed : ¬∀ s payload plen ip, NetRun s → Live (fragmentedTryinsert payload plen ip) s := by
  intro h
  have hd : (match etherParse (etherFrame [] [] ET_IPv4 (ipv4Header 7 9 0 0 28 0x2000 0 ++ List.replicate 8 1))
        (.init [] 9 fun _ => true) with
      | .ok (_, t) => (match fragmentedTryinsert [2] 1 (fragmentHeader 1) { t with stale := false } with
          | .ok (_, u) => u.stale
          | .error _   => false)
      | .error _   => false) = true := by decide +kernel
  split at hd
  case h_1 t ht =>
    have hl := h t [2] 1 (fragmentHeader 1) (.frame .init ht)
    rw [Live] at hl
    split at hd
    case h_1 u hu =>
      rw [hu] at hl
      exact Bool.false_ne_true (hl.symm.trans hd)
    case h_2 => exact Bool.false_ne_true hd
  case h_2 => exact Bool.false_ne_true hd

end Tryinsert
end Camellia.Net
