import Camellia.Kernel.State
import Camellia.Lib.Handout
import Camellia.Libk.Ring

namespace Camellia.Ps2

def ENOENT : Int := 8
def EAGAIN : Int := 208

def keymapLower : List Char := [
  '\x00', '\x00', '1', '2', '3', '4', '5', '6', '7', '8', '9', '0', '-', '=', '\x08', '\t',
  'q', 'w', 'e', 'r', 't', 'y', 'u', 'i', 'o', 'p', '[', ']', '\r', '\x00', 'a', 's',
  'd', 'f', 'g', 'h', 'j', 'k', 'l', '\x00', '\x27', '\x60', '\x00', '\x5c', 'z', 'x', 'c', 'v',
  'b', 'n', 'm', ',', '.', '/', '\x00', '*', '\x00', ' ', '\x00', '\x00', '\x00', '\x00', '\x00', '\x00',
  '\x00', '\x00', '\x00', '\x00', '\x00', '\x00', '\x00', '7', '8', '9', '-', '4', '5', '6', '+', '1',
  '2', '3', '0', '.', '\x00', '\x00', '\x00', '\x00', '\x00', '\x00', '\x00', '\x00', '\x00', '\x00', '\x00', '\x00',
  '\x00', '\x00', '\x00', '\x00', '\x00', '\x00', '\x00', '\x00', '\x00', '\x00', '\x00', '\x00', '\x00', '\x00', '\x00', '\x00',
  '\x00', '\x00', '\x00', '\x00', '\x00', '\x00', '\x00', '\x00', '\x00', '\x00', '\x00', '\x00', '\x00', '\x00', '\x00', '\x00'
]

def keymapUpper : List Char := [
  '\x00', '\x00', '!', '@', '#', '$', '%', '^', '&', '*', '(', ')', '_', '+', '\x08', '\t',
  'Q', 'W', 'E', 'R', 'T', 'Y', 'U', 'I', 'O', 'P', '{', '}', '\r', '\x00', 'A', 'S',
  'D', 'F', 'G', 'H', 'J', 'K', 'L', ':', '\x22', '~', '\x00', '|', 'Z', 'X', 'C', 'V',
  'B', 'N', 'M', '<', '>', '?', '\x00', '*', '\x00', ' ', '\x00', '\x00', '\x00', '\x00', '\x00', '\x00',
  '\x00', '\x00', '\x00', '\x00', '\x00', '\x00', '\x00', '7', '8', '9', '-', '4', '5', '6', '+', '1',
  '2', '3', '0', '.', '\x00', '\x00', '\x00', '\x00', '\x00', '\x00', '\x00', '\x00', '\x00', '\x00', '\x00', '\x00',
  '\x00', '\x00', '\x00', '\x00', '\x00', '\x00', '\x00', '\x00', '\x00', '\x00', '\x00', '\x00', '\x00', '\x00', '\x00', '\x00',
  '\x00', '\x00', '\x00', '\x00', '\x00', '\x00', '\x00', '\x00', '\x00', '\x00', '\x00', '\x00', '\x00', '\x00', '\x00', '\x00'
]

def lookup (keymap : List Char) (s : UInt8) : UInt8 :=
  (keymap.getD s.toNat '\x00').toUInt8

-- The part of `parse_scancode` in front of `ring_put1b`: the new `keys`, and the character if there is one.
def scan (keys : ℕ → Bool) (s : UInt8) : (ℕ → Bool) × Option UInt8 :=
  let ctrl := keys 0x1D
  let shift := keys 0x2A || keys 0x36
  let down := s &&& 0x80 = 0
  let s := s &&& 0x7f
  let upper := lookup keymapUpper s
  let c := if shift then upper else lookup keymapLower s
  let c := if ctrl ∧ 'A'.toUInt8 ≤ upper ∧ upper ≤ 'Z'.toUInt8 then upper - 'A'.toUInt8 + 1 else c
  (Function.update keys s.toNat down, if down ∧ c ≠ 0 then some c else none)

-- A call of `_sys_fs_respond`.
structure Response where
  h   : ℕ
  buf : List UInt8
  ret : Int
  deriving DecidableEq, Repr

def QSIZE : ℕ := 16

-- The variables of the driver, and what it has sent. The requests which were put into the queue and the characters
-- which were put into the ring are recorded.
structure Driver where
  keys     : ℕ → Bool
  backlog  : Ring
  queue    : List ℕ
  sent     : List Response
  enqueued : List ℕ
  stored   : List UInt8

namespace Driver

theorem backlog_pos : 0 < 16 := by
  decide

def start : Driver where
  keys _   := false
  backlog  := .new (fun _ => 0) 16 backlog_pos
  queue    := List.replicate QSIZE 0
  sent     := []
  enqueued := []
  stored   := []

def respond (d : Driver) (h : ℕ) (buf : List UInt8) (ret : Int) : Driver :=
  { d with sent := d.sent ++ [⟨h, buf, ret⟩] }

def put1b (d : Driver) (c : UInt8) : Driver :=
  { d with
    backlog := d.backlog.put1b c
    stored  := if d.backlog.atEnd then d.stored else d.stored ++ [c] }

def parseScancode (d : Driver) (s : UInt8) : Driver :=
  let (keys, c) := scan d.keys s
  c.elim { d with keys := keys } { d with keys := keys }.put1b

-- The loop of `enqueue`.
def occupy (h : ℕ) : List ℕ → Option (List ℕ)
  | []          => none
  | 0 :: q      => some (h :: q)
  | (n + 1) :: q => (occupy h q).map ((n + 1) :: ·)

def enqueue (d : Driver) (h : ℕ) : Driver :=
  match occupy h d.queue with
  | some q => { d with queue := q, enqueued := d.enqueued ++ [h] }
  | none   => d.respond h [] (-EAGAIN)

-- The last loop of `fulfill`, which frees the slot that it finds.
def release : List ℕ → Option (ℕ × List ℕ)
  | []           => none
  | 0 :: q       => (release q).map fun r => (r.fst, 0 :: r.snd)
  | (n + 1) :: q => some (n + 1, 0 :: q)

def fulfill (d : Driver) : Driver :=
  if d.queue.all (· = 0) then
    d
  else
    let (c, backlog) := d.backlog.get 1
    let d := { d with backlog := backlog }
    if c = [] then
      d
    else
      match release d.queue with
      | some (h, q) => { d.respond h c 1 with queue := q }
      | none        => d

-- What happens to the two threads. A thread runs until it waits again, as `proc_switch_any` goes on with the process
-- which is running. The handle of a request is not 0, as `proc_handle_init` starts at 1.
inductive Event
  | kb (buf : List UInt8)
  | fs (op : VfsOp) (len reqh : ℕ) (h : 0 < reqh)

-- An iteration of `kb_thread` or `fs_thread`.
def step (d : Driver) : Event → Driver
  | .kb buf            => (buf.foldl parseScancode d).fulfill
  | .fs .OPEN len h _  => if len = 0 then d.respond h [] 1 else d.respond h [] (-ENOENT)
  | .fs .READ _ h _    => (d.enqueue h).fulfill
  | .fs _ _ h _        => d.respond h [] (-1)

-- The requests in the queue, in the order of their slots.
def waiting (d : Driver) : List ℕ :=
  d.queue.filter (· ≠ 0)

-- The characters which were sent, and to whom.
def given (d : Driver) : List (ℕ × UInt8) :=
  d.sent.filterMap fun r => r.buf.head?.map (r.h, ·)

-- What is demanded of a state.
structure Good (d : Driver) : Prop where
  apart : d.waiting = [] ∨ d.backlog.contents = []
  order : d.given.map Prod.fst <+: d.enqueued
  once  : d.given.map Prod.snd ++ d.backlog.contents = d.stored

-- The characters of the scancodes.
def typed (keys : ℕ → Bool) : List UInt8 → List UInt8
  | []       => []
  | s :: buf => (scan keys s).snd.toList ++ typed (scan keys s).fst buf

-- There is no request behind the first slot which is free.
def Behind (q : List ℕ) : Prop :=
  ∀ h ∈ q.dropWhile (· ≠ 0), h = 0

instance (q : List ℕ) : Decidable (Behind q) :=
  inferInstanceAs <| Decidable (∀ h ∈ _, h = 0)

-- A read of the keyboard has at most one character for those who wait, if there are several. A request to read finds
-- the others in front of it.
def Meets (d : Driver) : Event → Prop
  | .kb buf         => d.waiting.length ≤ 1 ∨ (typed d.keys buf).length ≤ 1
  | .fs .READ _ _ _ => Behind d.queue
  | .fs _ _ _ _     => True

-- The states of the runs whose steps meet the condition.
inductive Reached : Driver → Prop
  | start : Reached start
  | step {d : Driver} {e : Event} (h : Reached d) (hm : d.Meets e) : Reached (d.step e)

-- The driver hands out characters to requests.
def handout (d : Driver) : Handout ℕ UInt8 where
  waiting := d.waiting
  pending := d.backlog.contents
  joined  := d.enqueued
  stored  := d.stored
  given   := d.given

section Slots

variable {q q' : List ℕ} {h : ℕ}

theorem occupy_some (hq : occupy h q = some q') (hb : Behind q) (h0 : 0 < h) :
    q'.filter (· ≠ 0) = q.filter (· ≠ 0) ++ [h] := by
  induction q generalizing q'
  case nil => simp [occupy] at hq
  case cons n q ih =>
    cases n
    case zero =>
      have hnone : q.filter (· ≠ 0) = [] := List.filter_eq_nil_iff.mpr fun x hx => by
        simp [hb x (by simp [hx])]
      obtain rfl := Option.some.inj hq
      rw [List.filter_cons_of_pos (by simpa using h0.ne'), List.filter_cons_of_neg (by simp), hnone, List.nil_append]
    case succ n =>
      obtain ⟨r, hr, rfl⟩ := Option.map_eq_some_iff.mp hq
      have hrest := ih hr fun x hx => hb x (by simpa using hx)
      simpa using hrest

theorem release_some {r : ℕ × List ℕ} (hr : release q = some r) :
    q.filter (· ≠ 0) = r.fst :: r.snd.filter (· ≠ 0) := by
  induction q generalizing r
  case nil => simp [release] at hr
  case cons n q ih =>
    cases n
    case zero =>
      obtain ⟨r, hq, rfl⟩ := Option.map_eq_some_iff.mp hr
      simpa using ih hq
    case succ n =>
      obtain rfl := Option.some.inj hr
      simp

theorem release_none (hr : release q = none) : q.filter (· ≠ 0) = [] := by
  induction q
  case nil => rfl
  case cons n q ih =>
    cases n
    case zero => simpa using ih (Option.map_eq_none_iff.mp hr)
    case succ n => cases hr

end Slots

variable {d : Driver} {h : ℕ} {c s : UInt8} {buf : List UInt8}

theorem handout_respond {ret : Int} : (d.respond h [] ret).handout = d.handout := by
  simp [handout, given, respond, waiting]

theorem handout_enqueue (hb : Behind d.queue) (h0 : 0 < h) :
    (d.enqueue h).handout = d.handout.join h ∨ (d.enqueue h).handout = d.handout := by
  rw [enqueue]
  split
  case h_1 q hq =>
    have hwaiting : ({ d with queue := q, enqueued := d.enqueued ++ [h] } : Driver).waiting = d.waiting ++ [h] :=
      occupy_some hq hb h0
    exact .inl (by rw [handout, hwaiting]; rfl)
  case h_2 => exact .inr handout_respond

theorem handout_put1b : ∃ xs, (d.put1b c).handout = d.handout.store xs ∧ xs.length ≤ 1 := by
  by_cases hend : d.backlog.atEnd
  case pos =>
    refine ⟨[], ?_, Nat.zero_le 1⟩
    simp [put1b, handout, Handout.store, hend, Ring.put1b_of_atEnd, given, waiting]
  case neg =>
    refine ⟨[c], ?_, le_rfl⟩
    simp [put1b, handout, Handout.store, hend, Ring.contents_put1b, given, waiting]

theorem handout_parseScancode :
    ∃ xs, (d.parseScancode s).handout = d.handout.store xs ∧ xs.length ≤ (scan d.keys s).snd.toList.length := by
  rw [parseScancode]
  cases scan d.keys s
  case mk keys c =>
    cases c
    case none => exact ⟨[], by simp [handout, Handout.store, given, waiting], le_rfl⟩
    case some c =>
      obtain ⟨xs, hput, hlen⟩ := @handout_put1b { d with keys := keys } c
      exact ⟨xs, hput, hlen⟩

theorem keys_parseScancode : (d.parseScancode s).keys = (scan d.keys s).fst := by
  rw [parseScancode]
  cases scan d.keys s
  case mk keys c => cases c <;> rfl

-- The scancodes of a read store at most what they type.
theorem handout_parse :
    ∃ xs, (buf.foldl parseScancode d).handout = d.handout.store xs ∧ xs.length ≤ (typed d.keys buf).length := by
  induction buf generalizing d
  case nil => exact ⟨[], by simp [Handout.store], le_rfl⟩
  case cons s buf ih =>
    obtain ⟨xs, hfirst, hlen⟩ := @handout_parseScancode d s
    obtain ⟨ys, hrest, hlen'⟩ := @ih (d.parseScancode s)
    refine ⟨xs ++ ys, ?_, ?_⟩
    · rw [List.foldl_cons, hrest, hfirst]
      simp [Handout.store]
    · rw [keys_parseScancode] at hlen'
      rw [typed, List.length_append, List.length_append]
      exact Nat.add_le_add hlen hlen'

theorem waiting_eq_nil : d.queue.all (· = 0) ↔ d.waiting = [] := by
  simp [waiting]

theorem handout_fulfill : d.fulfill.handout = d.handout.serve := by
  by_cases hnone : d.queue.all (· = 0)
  case pos =>
    rw [fulfill, if_pos hnone, Handout.serve_matched]
    exact .inl (waiting_eq_nil.mp hnone)
  case neg =>
    rw [fulfill, if_neg hnone]
    have hfst := @Ring.get_fst d.backlog 1
    have hsnd := @Ring.contents_get d.backlog 1
    cases hp : d.backlog.contents
    case nil =>
      rw [Handout.serve_matched (.inr hp)]
      simp [handout, hfst, hsnd, hp, given, waiting]
    case cons c cs =>
      rw [hp] at hfst hsnd
      cases hr : release d.queue
      case none => exact absurd (waiting_eq_nil.mpr (release_none hr)) hnone
      case some r =>
        rw [Handout.serve_cons (release_some hr) hp]
        simp [handout, Handout.give, hfst, hsnd, hr, given, waiting, respond]

-- The driver hands out fairly, and nobody waits beside a character.
theorem Reached.fair (h : Reached d) : d.handout.Fair ∧ d.handout.Matched := by
  induction h
  case start => exact ⟨⟨rfl, rfl⟩, .inl rfl⟩
  case step d e _ hm ih =>
    cases e
    case kb buf =>
      obtain ⟨xs, hstore, hlen⟩ := @handout_parse d buf
      have hfew : d.handout.waiting.length ≤ 1 ∨ xs.length ≤ 1 := hm.imp_right hlen.trans
      rw [Driver.step, handout_fulfill, hstore]
      exact ⟨ih.left.store.serve, ih.right.store_iff.mpr hfew⟩
    case fs op len h h0 =>
      cases op
      case READ =>
        rw [Driver.step, handout_fulfill]
        obtain hjoin | hfull := handout_enqueue hm h0
        · rw [hjoin]
          exact ⟨ih.left.join.serve, ih.right.join⟩
        · rw [hfull, Handout.serve_matched ih.right]
          exact ih
      case OPEN =>
        rw [Driver.step]
        split_ifs <;> rwa [handout_respond]
      all_goals
        change (d.respond h [] (-1)).handout.Fair ∧ (d.respond h [] (-1)).handout.Matched
        rw [handout_respond]
        exact ih

theorem reached_good (h : Reached d) : d.Good where
  apart := h.fair.right
  order := ⟨d.waiting, h.fair.left.order⟩
  once  := h.fair.left.once

theorem reached_good_keys :
    ((start.step (.fs .READ 1 1 (by decide))).step (.kb [0x1e, 0x30])).Good := by
  have hread : start.Meets (.fs .READ 1 1 (by decide)) := (by decide : Behind start.queue)
  exact reached_good (.step (.step .start hread) (.inl (by decide +kernel)))

def run (events : List Event) : Driver :=
  events.foldl step start

-- Two requests wait when two keys are read at once, and a third one finds the slot of the first one free.
theorem not_good_stranded :
    ¬(run [.fs .READ 1 1 (by decide), .fs .READ 1 2 (by decide), .kb [0x1e, 0x30]]).Good ∧
      ¬(run [.fs .READ 1 1 (by decide), .fs .READ 1 2 (by decide), .kb [0x1e], .fs .READ 1 3 (by decide),
        .kb [0x30]]).Good := by
  constructor
  · exact fun h => absurd h.apart (by decide +kernel)
  · exact fun h => absurd h.order (by decide +kernel)

end Driver
end Camellia.Ps2
