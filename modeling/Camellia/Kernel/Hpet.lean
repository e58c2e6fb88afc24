import Camellia.Kernel.Sleep
import Camellia.Lib.Word

namespace Camellia

-- The product is computed with 64 bits, before it is widened.
def uptimeNs (counter hpetPeriod : UInt64) : UInt64 :=
  counter * hpetPeriod / 1000000

-- The goal which `timer_schedule` computes from nanoseconds, when the counter is `now`.
def timerGoal (time now hpetPeriod : UInt64) : UInt64 :=
  let goal := now + time * 1000000 / hpetPeriod
  if goal < now then ~~~0 else goal

def sysSleep (p : Pid) (ms : Int64) (now hpetPeriod : UInt64) : K Unit :=
  timerSchedule p (timerGoal (ms * 1000000).toUInt64 now hpetPeriod).toNat

-- `_sys_time` returns the time since the first call, where 0 stands for a `basetime` which is not set.
def sysTime (basetime : UInt64) (flags : Int) (counter hpetPeriod : UInt64) : UInt64 × UInt64 :=
  if flags ≠ 0 then
    ((-ENOSYS).toInt64.toUInt64, basetime)
  else
    let now := uptimeNs counter hpetPeriod
    let basetime := if basetime = 0 then now else basetime
    (now - basetime, basetime)

-- What the calls of `_sys_time(0)` by one process return, given the counter at each of them.
def sysTimes (hpetPeriod basetime : UInt64) : List UInt64 → List UInt64
  | []            => []
  | counter :: cs =>
    (sysTime basetime 0 counter hpetPeriod).1 :: sysTimes hpetPeriod (sysTime basetime 0 counter hpetPeriod).2 cs

-- The comparator which `hpet_sched` programs, if it enables the timer.
def hpetSched (s : State) : Option ℕ :=
  s.scheduled.head?.map s.goal

section Deadline

variable {s : State} {p : Pid} {v : Proc} {n period now : ℕ}

theorem timerInsert_ok {goal : ℕ} (l : List Pid)
    (hl : ∀ q ∈ l, ∃ w, s.procs.get q = some w ∧ w.state = .waits4timer) :
    wp (timerInsert p goal l) (fun _ t => t = s) (fun _ => False) s := by
  induction l
  case nil => exact wp_pure.mpr rfl
  case cons q l hi =>
    have ⟨w, hw, hs⟩ := hl q (List.mem_cons_self ..)
    simp only [timerInsert, wp_bind, wp_getProc, hw, Option.elim_some, wp_ite, wp_kassert, wp_pure]
    refine ⟨fun _ => ⟨fun _ => ?_, fun hn => absurd hs hn⟩, fun _ => trivial⟩
    refine wp_mono (hi fun r hr => hl r (List.mem_cons_of_mem _ hr)) (fun l t ht => ?_) fun _ => id
    exact wp_pure.mpr ht

-- A process which runs can always go to sleep.
theorem timerSchedule_ok {goal : ℕ} (ht : TimerOk s) (hv : s.procs.get p = some v) (hs : v.state = .running) :
    wp (timerSchedule p goal) (fun _ t => t.goal p = goal) (fun _ => False) s := by
  simp only [timerSchedule, procSetstate, wp_bind, wp_getProc, hv, Option.elim_some, wp_kassert, hs, reduceCtorEq,
    ne_eq, not_false_eq_true, not_true_eq_false, forall_const, false_implies, and_true, wp_updProc, wp_get,
    Heap.get_set_self hv, Heap.set_set]
  have hl : ∀ q ∈ s.scheduled, ∃ w, (s.procs.set p { v with state := .waits4timer, goal := goal }).get q = some w ∧
      w.state = .waits4timer := fun q hq => by
    obtain ⟨w, hw, hws⟩ := ht.mem_iff.mp hq
    have hne : q ≠ p := fun he => by
      obtain rfl := Option.some.inj (hv.symm.trans (he ▸ hw))
      rw [hs] at hws
      contradiction
    exact ⟨w, (Heap.get_set_ne hne).trans hw, hws⟩
  refine wp_mono (timerInsert_ok s.scheduled hl) (fun l t ht => ?_) fun _ => id
  subst ht
  simp [State.goal, Heap.get_set_self hv]

theorem toNat_timerGoal (time : UInt64) (now hpetPeriod : UInt64) :
    (timerGoal time now hpetPeriod).toNat =
      min (2 ^ 64 - 1) (now.toNat + time.toNat * 1000000 % 2 ^ 64 / hpetPeriod.toNat) := by
  have hd : (time * 1000000 / hpetPeriod).toNat = time.toNat * 1000000 % 2 ^ 64 / hpetPeriod.toNat := by
    simp [UInt64.toNat_div, UInt64.toNat_mul]
  have := (time * 1000000 / hpetPeriod).toNat_lt
  have := now.toNat_lt
  have hs : (now + time * 1000000 / hpetPeriod).toNat =
      (now.toNat + (time * 1000000 / hpetPeriod).toNat) % 2 ^ 64 := UInt64.toNat_add ..
  have hmax : (~~~0 : UInt64).toNat = 2 ^ 64 - 1 := by decide
  rw [← hd, timerGoal]
  split_ifs with h <;> rw [UInt64.lt_iff_toNat_lt] at h <;> omega

-- A quotient sees whether its dividend was truncated.
theorem truncated_div_lt (hp : 0 < period) (hlt : period < 2 ^ 64) (hn : 2 ^ 64 ≤ n) :
    n % 2 ^ 64 / period < n / period := by
  have h : (n % 2 ^ 64 + period) / period ≤ n / period := Nat.div_le_div_right (by omega)
  rw [Nat.add_div_right _ hp] at h
  omega

theorem min_truncated_iff (hp : 0 < period) (hlt : period < 2 ^ 64) (m : ℕ) :
    min m (now + n % 2 ^ 64 / period) = min m (now + n / period) ↔
      n < 2 ^ 64 ∨ m ≤ now + n % 2 ^ 64 / period := by
  by_cases hn : n < 2 ^ 64
  case pos => exact iff_of_true (by rw [Nat.mod_eq_of_lt hn]) (.inl hn)
  case neg =>
    have := truncated_div_lt hp hlt (not_lt.mp hn)
    omega

theorem toNat_sleepTime {ms : Int64} (hms : 0 ≤ ms.toInt) :
    (ms * 1000000).toUInt64.toNat * 1000000 % 2 ^ 64 = ms.toInt.toNat * 10 ^ 12 % 2 ^ 64 := by
  have h := toNat_toUInt64_of_nonneg hms
  have hmul : (ms * 1000000).toUInt64.toNat = ms.toUInt64.toNat * 1000000 % 2 ^ 64 := by
    rw [Int64.toUInt64_mul, UInt64.toNat_mul]
    rfl
  omega

-- The deadline in unbounded integers, which saturates.
def deadline (ms now hpetPeriod : ℕ) : ℕ :=
  min (2 ^ 64 - 1) (now + ms * 10 ^ 12 / hpetPeriod)

-- The product of the duration and the femtoseconds of a millisecond fits into 64 bits, or the counter is so
-- near to its end that even what is left of the product leads behind it.
def SleepFits (ms now hpetPeriod : ℕ) : Prop :=
  ms * 10 ^ 12 < 2 ^ 64 ∨ 2 ^ 64 - 1 ≤ now + ms * 10 ^ 12 % 2 ^ 64 / hpetPeriod

theorem sysSleep_ok {ms : Int64} {now hpetPeriod : UInt64} (hms : 0 ≤ ms.toInt) (ht : TimerOk s)
    (hv : s.procs.get p = some v) (hs : v.state = .running) :
    wp (sysSleep p ms now hpetPeriod) (fun _ t => t.goal p =
      min (2 ^ 64 - 1) (now.toNat + ms.toInt.toNat * 10 ^ 12 % 2 ^ 64 / hpetPeriod.toNat)) (fun _ => False) s := by
  rw [← toNat_sleepTime hms, ← toNat_timerGoal]
  exact timerSchedule_ok ht hv hs

theorem sysSleep_iff {paths : List (List UInt8)} {es : List Entry} (h : Trace paths es s) (hv : s.procs.get p = some v)
    (hs : v.state = .running) (ms : Int64) (now hpetPeriod : UInt64) (hms : 0 ≤ ms.toInt)
    (hp : 0 < hpetPeriod.toNat) (hlt : hpetPeriod.toNat < 2 ^ 32) :
    ∃ t, sysSleep p ms now hpetPeriod s = .ok ((), t) ∧
      (t.goal p = deadline ms.toInt.toNat now.toNat hpetPeriod.toNat ↔
        SleepFits ms.toInt.toNat now.toNat hpetPeriod.toNat) ∧
      (SleepFits ms.toInt.toNat now.toNat hpetPeriod.toNat →
        ∀ ms' t', 0 ≤ ms'.toInt → ms'.toInt ≤ ms.toInt →
          sysSleep p ms' now hpetPeriod s = .ok ((), t') → t'.goal p ≤ t.goal p) := by
  have ht := h.reachable.shares.2
  obtain ⟨_, t, hrun, hg⟩ := wp_false_iff.mp (@sysSleep_ok s p v ms now hpetPeriod hms ht hv hs)
  have hiff := @min_truncated_iff (ms.toInt.toNat * 10 ^ 12) hpetPeriod.toNat now.toNat hp (by omega) (2 ^ 64 - 1)
  refine ⟨t, hrun, by rw [hg]; exact hiff, fun hfit ms' t' hms' hle hrun' => ?_⟩
  have hsame : min (2 ^ 64 - 1) (now.toNat + ms.toInt.toNat * 10 ^ 12 % 2 ^ 64 / hpetPeriod.toNat) =
    min (2 ^ 64 - 1) (now.toNat + ms.toInt.toNat * 10 ^ 12 / hpetPeriod.toNat) := hiff.mpr hfit
  obtain ⟨_, t'', hrun'', hg'⟩ := wp_false_iff.mp (@sysSleep_ok s p v ms' now hpetPeriod hms' ht hv hs)
  obtain ⟨_, rfl⟩ := Prod.mk.inj (Except.ok.inj (hrun'.symm.trans hrun''))
  rw [hg, hg', hsame]
  have hmod := Nat.div_le_div_right (c := hpetPeriod.toNat) (Nat.mod_le (ms'.toInt.toNat * 10 ^ 12) (2 ^ 64))
  have hmono : ms'.toInt.toNat * 10 ^ 12 / hpetPeriod.toNat ≤ ms.toInt.toNat * 10 ^ 12 / hpetPeriod.toNat :=
    Nat.div_le_div_right (Nat.mul_le_mul_right _ (by omega))
  omega

-- The first process sleeps for ten milliseconds.
theorem sysSleep_iff_short :
    ∃ t, sysSleep 0 10 7 10000000 (bootState [[]]) = .ok ((), t) ∧
      (t.goal 0 = deadline 10 7 10000000 ↔ SleepFits 10 7 10000000) ∧
      (SleepFits 10 7 10000000 → ∀ ms' t', 0 ≤ ms'.toInt → ms'.toInt ≤ 10 →
        sysSleep 0 ms' 7 10000000 (bootState [[]]) = .ok ((), t') → t'.goal 0 ≤ t.goal 0) :=
  sysSleep_iff .boot rfl rfl 10 7 10000000 (by decide) (by decide) (by decide)

-- It sleeps for a day, as init does, but not even for four hours.
theorem sysSleep_day :
    ∃ t, sysSleep 0 86400000 0 10000000 (bootState [[]]) = .ok ((), t) ∧
      t.goal 0 = 1261302370516 ∧ deadline 86400000 0 10000000 = 8640000000000 :=
  ⟨_, rfl, by decide, by decide⟩

end Deadline

section Uptime

variable {hpetPeriod basetime counter : UInt64} {cs : List UInt64}

theorem toNat_uptimeNs :
    (uptimeNs counter hpetPeriod).toNat = counter.toNat * hpetPeriod.toNat % 2 ^ 64 / 1000000 := by
  simp [uptimeNs, UInt64.toNat_div, UInt64.toNat_mul]

theorem uptimeNs_iff :
    (uptimeNs counter hpetPeriod).toNat = counter.toNat * hpetPeriod.toNat / 1000000 ↔
      counter.toNat * hpetPeriod.toNat < 2 ^ 64 := by
  rw [toNat_uptimeNs]
  refine ⟨fun h => ?_, fun h => by rw [Nat.mod_eq_of_lt h]⟩
  by_contra hn
  have : counter.toNat * hpetPeriod.toNat % 2 ^ 64 / 1000000 < counter.toNat * hpetPeriod.toNat / 1000000 :=
    truncated_div_lt (by decide) (by decide) (not_lt.mp hn)
  omega

theorem uptimeNs_le {counter' : UInt64} (hle : counter ≤ counter')
    (hlt : counter'.toNat * hpetPeriod.toNat < 2 ^ 64) :
    uptimeNs counter hpetPeriod ≤ uptimeNs counter' hpetPeriod := by
  have hmul : counter.toNat * hpetPeriod.toNat ≤ counter'.toNat * hpetPeriod.toNat :=
    Nat.mul_le_mul_right _ (UInt64.le_iff_toNat_le.mp hle)
  rw [UInt64.le_iff_toNat_le, uptimeNs_iff.mpr hlt, uptimeNs_iff.mpr (hmul.trans_lt hlt)]
  exact Nat.div_le_div_right hmul

theorem sysTimes_of_set (h : basetime ≠ 0) :
    sysTimes hpetPeriod basetime cs = cs.map (uptimeNs · hpetPeriod - basetime) := by
  induction cs
  case nil => rfl
  case cons c cs hi => simp [sysTimes, sysTime, h, hi]

-- Later calls return more, as long as the base time is unset or past.
theorem sysTimes_sorted (hc : cs.Pairwise (· ≤ ·)) (hlt : ∀ c ∈ cs, c.toNat * hpetPeriod.toNat < 2 ^ 64)
    (hb : ∀ c ∈ cs, basetime ≤ uptimeNs c hpetPeriod) : (sysTimes hpetPeriod basetime cs).Pairwise (· ≤ ·) := by
  have hset {base : UInt64} {cs : List UInt64} (h : base ≠ 0) (hc : cs.Pairwise (· ≤ ·))
      (hlt : ∀ c ∈ cs, c.toNat * hpetPeriod.toNat < 2 ^ 64) (hb : ∀ c ∈ cs, base ≤ uptimeNs c hpetPeriod) :
      (sysTimes hpetPeriod base cs).Pairwise (· ≤ ·) := by
    rw [sysTimes_of_set h, List.pairwise_map]
    refine hc.imp_of_mem fun {c c'} hm hm' hle => ?_
    have := UInt64.le_iff_toNat_le.mp (uptimeNs_le hle (hlt c' hm'))
    rw [UInt64.le_iff_toNat_le, UInt64.toNat_sub_of_le _ _ (hb c hm), UInt64.toNat_sub_of_le _ _ (hb c' hm')]
    omega
  by_cases h : basetime = 0
  case neg => exact hset h hc hlt hb
  case pos =>
    subst h
    induction cs
    case nil => exact .nil
    case cons c cs hi =>
      have ⟨hle, hc'⟩ := List.pairwise_cons.mp hc
      have hlt' : ∀ c ∈ cs, c.toNat * hpetPeriod.toNat < 2 ^ 64 := fun c hm => hlt c (List.mem_cons_of_mem _ hm)
      have hbase : (sysTime 0 0 c hpetPeriod).2 = uptimeNs c hpetPeriod := by simp [sysTime]
      have hret : (sysTime 0 0 c hpetPeriod).1 = 0 := by simp [sysTime]
      rw [sysTimes, hbase, hret]
      refine .cons (fun _ _ => UInt64.zero_le ..) ?_
      by_cases hz : uptimeNs c hpetPeriod = 0
      case pos =>
        rw [hz]
        exact hi hc' hlt' fun _ _ => UInt64.zero_le ..
      case neg => exact hset hz hc' hlt' fun c' hm => uptimeNs_le (hle c' hm) (hlt' c' hm)

-- What the uptime and the calls of `_sys_time` have to be, for the values of the counter at each of them.
structure TimeOk (hpetPeriod : UInt64) (cs : List UInt64) : Prop where
  exact  : ∀ c ∈ cs, (uptimeNs c hpetPeriod).toNat = c.toNat * hpetPeriod.toNat / 1000000
  sorted : (sysTimes hpetPeriod 0 cs).Pairwise (· ≤ ·)
  start  : ∀ t ∈ (sysTimes hpetPeriod 0 cs).head?, t = 0

theorem timeOk_iff (hc : cs.Pairwise (· ≤ ·)) :
    TimeOk hpetPeriod cs ↔ ∀ c ∈ cs, c.toNat * hpetPeriod.toNat < 2 ^ 64 := by
  constructor
  case mp => exact fun h c hm => uptimeNs_iff.mp (h.exact c hm)
  case mpr =>
    intro h
    refine ⟨fun c hm => uptimeNs_iff.mpr (h c hm), sysTimes_sorted hc h fun _ _ => UInt64.zero_le .., ?_⟩
    cases cs
    case nil       => simp [sysTimes]
    case cons c cs => simp [sysTimes, sysTime]

-- The counter starts to tick.
theorem timeOk_iff_ticks :
    TimeOk 10000000 [0, 1, 1] ↔ ∀ c ∈ ([0, 1, 1] : List UInt64), c.toNat * (10000000 : UInt64).toNat < 2 ^ 64 :=
  timeOk_iff (by decide)

-- After five hours with a counter which ticks every 10 ns, the time starts from the beginning.
theorem not_timeOk_hours :
    ([1000000000, 1844000000000, 1845674407371] : List UInt64).Pairwise (· ≤ ·) ∧
      (1845674407371 : UInt64).toNat * (10000000 : UInt64).toNat / 1000000 < 2 ^ 64 ∧
      sysTimes 10000000 0 [1000000000, 1844000000000, 1845674407371] = [0, 18430000000000, 0] ∧
      ¬TimeOk 10000000 [1000000000, 1844000000000, 1845674407371] :=
  ⟨by decide, by decide, by decide, fun h => absurd h.sorted (by decide)⟩

end Uptime

section Irq

variable {s t : State} {counter : ℕ}

-- The processes which should have been woken up.
def expired (s : State) (counter : ℕ) : List Pid :=
  s.scheduled.filter (s.goal · < counter)

-- Nobody sleeps too long, and the timer is programmed to go off in the future.
structure IrqOk (counter : ℕ) (t : State) : Prop where
  expired    : expired t counter = []
  comparator : ∀ goal, hpetSched t = some goal → counter ≤ goal

theorem irqOk_iff : IrqOk counter t ↔ expired t counter = [] := by
  refine ⟨IrqOk.expired, fun h => ⟨h, fun goal hg => ?_⟩⟩
  obtain ⟨p, hp, rfl⟩ := Option.map_eq_some_iff.mp hg
  have := List.filter_eq_nil_iff.mp h p (List.mem_of_mem_head? hp)
  simpa using this

-- What the handler does with the list: at most its head is taken.
theorem hpetIrq_spec (hl : ∀ p ∈ s.scheduled, ∃ v, s.procs.get p = some v ∧ v.state = .waits4timer) :
    wp (hpetIrq counter) (fun _ t => t.goal = s.goal ∧
      t.scheduled = s.scheduled.drop (if ∃ p ∈ s.scheduled.head?, s.goal p < counter then 1 else 0))
      (fun _ => False) s := by
  simp only [hpetIrq, wp_bind, wp_get]
  cases hs : s.scheduled
  case nil => exact wp_pure.mpr ⟨rfl, hs.trans (by simp)⟩
  case cons p rest =>
    obtain ⟨v, hv, hst⟩ := hl p (hs ▸ List.mem_cons_self ..)
    have hg : s.goal p = v.goal := by rw [State.goal, hv, Option.elim_some]
    simp only [wp_bind, wp_getProc, hv, Option.elim_some, wp_ite, wp_modify, wp_pure, procSetstate, wp_kassert,
      wp_updProc, hst, reduceCtorEq, ne_eq, not_false_eq_true, forall_const, not_true_eq_false, false_implies,
      and_true, List.head?_cons, Option.mem_def, Option.some.injEq, exists_eq_left', hg]
    refine ⟨fun hlt => ⟨?_, by rw [if_pos hlt, List.drop_one, List.tail_cons]⟩, fun hn => ⟨trivial, ?_⟩⟩
    · funext q
      by_cases hq : q = p
      · simp [State.goal, hq, Heap.get_set_self hv, hv]
      · simp [State.goal, Heap.get_set_ne hq]
    · rw [hs, if_neg hn, List.drop_zero]

theorem hpetIrq_iff (hl : ∀ p ∈ s.scheduled, ∃ v, s.procs.get p = some v ∧ v.state = .waits4timer)
    (hs : s.scheduled.Pairwise (s.goal · ≤ s.goal ·)) :
    ∃ t, hpetIrq counter s = .ok ((), t) ∧ (IrqOk counter t ↔ (expired s counter).length ≤ 1) := by
  obtain ⟨_, t, hrun, hgoal, ht⟩ := wp_false_iff.mp (@hpetIrq_spec s counter hl)
  refine ⟨t, hrun, ?_⟩
  rw [irqOk_iff, expired, expired, hgoal, ht]
  cases hc : s.scheduled
  case nil => simp
  case cons p rest =>
    have hle := (List.pairwise_cons.mp (hc ▸ hs)).left
    by_cases hlt : s.goal p < counter
    case pos => simp [hlt, List.filter_eq_nil_iff]
    case neg =>
      have hrest : rest.filter (s.goal · < counter) = [] :=
        List.filter_eq_nil_iff.mpr fun q hq => by
          have := hle q hq
          simp only [decide_eq_true_eq]
          omega
      simp [hlt, hrest]

-- The timer goes off for the only process which sleeps.
theorem hpetIrq_iff_single :
    ∃ s t, timerSchedule 0 7 (bootState [[]]) = .ok ((), s) ∧ hpetIrq 9 s = .ok ((), t) ∧
      (IrqOk 9 t ↔ (expired s 9).length ≤ 1) := by
  have hrun : ∃ s, timerSchedule 0 7 (bootState [[]]) = .ok ((), s) ∧ s.scheduled = [0] ∧
      ∃ v, s.procs.get 0 = some v ∧ v.state = .waits4timer := ⟨_, rfl, rfl, _, rfl, rfl⟩
  have ⟨s, hs, hl, hv⟩ := hrun
  have ⟨t, ht, hiff⟩ := @hpetIrq_iff s 9 (by simpa [hl] using hv) (by simp [hl])
  exact ⟨s, t, hs, ht, hiff⟩

-- Two processes sleep until the same time, and only one of them is woken up.
theorem not_irqOk_two : ∃ es s t, Trace [[]] es s ∧ s.scheduled = [0, 1] ∧
    hpetIrq 9 s = .ok ((), t) ∧ hpetSched t = some 7 ∧ ¬IrqOk 9 t := by
  have hrun : ∃ a b c t, Step (bootState [[]]) (.syscall 0 (.fork 0)) a ∧
      Step a (.syscall 0 (.sleep 7)) b ∧ Step b (.syscall 1 (.sleep 7)) c ∧ c.scheduled = [0, 1] ∧
      hpetIrq 9 c = .ok ((), t) ∧ hpetSched t = some 7 :=
    ⟨_, _, _, _, ⟨⟨_, rfl, rfl⟩, quietEnv, rfl⟩, ⟨⟨_, rfl, rfl⟩, quietEnv, rfl⟩,
      ⟨⟨_, rfl, rfl⟩, quietEnv, rfl⟩, rfl, rfl, rfl⟩
  have ⟨a, b, c, t, h₁, h₂, h₃, hc, ht, hg⟩ := hrun
  refine ⟨_, c, t, .step (.step (.step .boot h₁) h₂) h₃, hc, ht, hg, fun h => ?_⟩
  exact absurd (h.comparator 7 hg) (by decide)

end Irq
end Camellia
