import Camellia.Kernel.Byid

namespace Camellia

-- The names of the files in the directory of a process. The empty name is the directory itself.
def phandleNames : List (List UInt8 × PhandleType) :=
  [([], .dir), (nameIntr, .intr), (nameIntrDown, .intrDown), (nameMem, .mem)]

-- The number which some digits spell, without any bound.
def decimalValue (digits : List UInt8) : ℕ :=
  Nat.ofDigits 10 (digits.reverse.map (·.toNat - 48))

-- The path of a file of a process.
structure ProcPath (path digits name : List UInt8) (type : PhandleType) : Prop where
  eq     : path = slash :: (digits ++ slash :: name)
  ne     : digits ≠ []
  digits : ∀ c ∈ digits, isdigit c
  name   : (name, type) ∈ phandleNames

-- What a path stands for: the root, or a file of the process in the namespace which has the id that
-- the digits spell.
inductive PathOpens (s : State) (root : Pid) (path : List UInt8) : Phandle → Prop
  | root : path = [slash] → PathOpens s root path ⟨0, .root⟩
  | file {digits name : List UInt8} {type : PhandleType} {q : Pid} {v : Proc} :
    ProcPath path digits name type → NsMember s root q →
    procNsId root q s = .ok (decimalValue digits, s) → s.procs.get q = some v →
    PathOpens s root path ⟨v.globalid, type⟩

-- `openpath` finds what a path stands for, and rejects the paths which stand for nothing.
def OpenpathExact (s : State) (root : Pid) (path : List UInt8) : Prop :=
  ∃ o, openpath path root s = .ok (o, s) ∧ (∀ h, o = some h → PathOpens s root path h) ∧
    (o = none → ∀ h, ¬PathOpens s root path h)

-- The number does not fit into 32 bits, and what remains of it is an id.
def PathWraps (s : State) (root : Pid) (path : List UInt8) : Prop :=
  ∃ digits name type q, ProcPath path digits name type ∧ 2 ^ 32 ≤ decimalValue digits ∧
    NsMember s root q ∧ procNsId root q s = .ok (decimalValue digits % 2 ^ 32, s)

section Parse

variable {lid n : ℕ} {c : UInt8} {path digits digits' name name' : List UInt8}
variable {type type' : PhandleType}

theorem decimalValue_cons : decimalValue (c :: digits) =
    (c.toNat - 48) * 10 ^ digits.length + decimalValue digits := by
  simp [decimalValue, Nat.ofDigits_append, Nat.add_comm, Nat.mul_comm]

theorem slash_not_digit : ¬isdigit slash := by
  decide

theorem openpathLid_digits (lid : ℕ) (name : List UInt8) (hlid : lid < 2 ^ 32) (hd : ∀ c ∈ digits, isdigit c) :
    openpathLid lid (digits ++ slash :: name) =
      some ((lid * 10 ^ digits.length + decimalValue digits) % 2 ^ 32, name) := by
  induction digits generalizing lid
  case nil =>
    simp only [List.nil_append, openpathLid, if_true, List.length_nil, pow_zero, Nat.mul_one, decimalValue,
      List.reverse_nil, List.map_nil, Nat.ofDigits_nil, Nat.add_zero, Nat.mod_eq_of_lt hlid]
  case cons c digits hi =>
    have hc := hd c List.mem_cons_self
    have hne : c ≠ slash := fun he => slash_not_digit (he ▸ hc)
    simp only [List.cons_append, openpathLid, hne, if_false, hc, if_true]
    rw [hi _ (Nat.mod_lt _ (by positivity)) fun d hm => hd d (List.mem_cons_of_mem _ hm), decimalValue_cons,
      List.length_cons]
    congr 2
    rw [Nat.add_mod, Nat.mul_mod, Nat.mod_mod, ← Nat.mul_mod, ← Nat.add_mod]
    congr 1
    ring

theorem openpathLid_some (h : openpathLid lid path = some (n, name)) :
    ∃ digits, path = digits ++ slash :: name ∧ ∀ c ∈ digits, isdigit c := by
  induction path generalizing lid
  case nil => simp [openpathLid] at h
  case cons c path hi =>
    simp only [openpathLid] at h
    split_ifs at h with hslash hdigit
    · simp only [Option.some.injEq, Prod.mk.injEq] at h
      exact ⟨[], by simp [hslash, h.2], by simp⟩
    · obtain ⟨digits, hpath, hd⟩ := hi h
      exact ⟨c :: digits, by simp [hpath], by simpa [hdigit] using hd⟩

theorem openpathType_iff : openpathType name = some type ↔ (name, type) ∈ phandleNames := by
  unfold openpathType
  simp only [phandleNames, List.mem_cons, Prod.mk.injEq, List.not_mem_nil, or_false]
  split_ifs with h₁ h₂ h₃ h₄
  all_goals grind [nameIntr, nameIntrDown, nameMem]

-- There is only one way to read a path.
theorem ProcPath.unique (h : ProcPath path digits name type) (h' : ProcPath path digits' name' type') :
    digits = digits' ∧ name = name' ∧ type = type' := by
  have heq := List.cons_inj_right _ |>.mp (h.eq.symm.trans h'.eq)
  have hlid := (openpathLid_digits 0 name (by decide) h.digits).symm.trans
    (heq ▸ openpathLid_digits 0 name' (by decide) h'.digits)
  simp only [Option.some.injEq, Prod.mk.injEq] at hlid
  obtain ⟨-, rfl⟩ := hlid
  have htype := (openpathType_iff.mpr h.name).symm.trans (openpathType_iff.mpr h'.name)
  exact ⟨List.append_cancel_right heq, rfl, Option.some_inj.mp htype⟩

end Parse

section Openpath

variable {s : State} {init root q : Pid} {o : Proc} {c : Forest Pid} {path digits name : List UInt8}
variable {type : PhandleType} {id : ℕ}

-- `openpath` goes on with the namespace as soon as the path is understood.
theorem openpath_file (h : ProcPath path digits name type) : openpath path root = (do
    match ← procNsByid root (decimalValue digits % 2 ^ 32) with
    | none   => pure none
    | some p => pure (some ⟨(← getProc p).globalid, type⟩)) := by
  obtain ⟨d, ds, hd⟩ := List.exists_cons_of_ne_nil h.ne
  have hlid := openpathLid_digits 0 name (by decide) h.digits
  simp only [Nat.zero_mul, Nat.zero_add, hd, List.cons_append] at hlid
  have hdigit : isdigit d := h.digits d (hd ▸ List.mem_cons_self)
  have htype := openpathType_iff.mpr h.name
  rw [h.eq, hd, List.cons_append, openpath, if_neg (not_not.mpr hdigit), hlid]
  dsimp only
  generalize openpathType name = t at htype
  subst htype
  rfl

-- All other paths but the root's are rejected.
theorem openpath_rejected (hpath : path = [] ∨ path.head? = some slash) (hroot : path ≠ [slash])
    (hfile : ∀ digits name type, ¬ProcPath path digits name type) : openpath path root = pure none := by
  cases path
  case nil => rfl
  case cons a path =>
    obtain rfl : a = slash := by simpa using hpath
    cases path
    case nil         => contradiction
    case cons d path =>
      by_cases hd : isdigit d
      case neg => simp [openpath, hd]
      case pos =>
        simp only [openpath, hd, not_true_eq_false, if_false]
        cases hlid : openpathLid 0 (d :: path)
        case none             => rfl
        case some x =>
          obtain ⟨lid, name⟩ := x
          cases htype : openpathType name
          case none      => simp only [htype]
          case some type =>
            obtain ⟨digits, hdigits, hall⟩ := openpathLid_some hlid
            refine absurd ⟨by rw [hdigits], ?_, hall, openpathType_iff.mp htype⟩ (hfile digits name type)
            rintro rfl
            simp only [List.nil_append, List.cons.injEq] at hdigits
            exact slash_not_digit (hdigits.1 ▸ hd)

theorem procNsId_lt (hin : NsInherited s) (hids : ∀ p v, s.procs.get p = some v → v.localid < 2 ^ 32)
    (hq : NsMember s root q) (hid : procNsId root q s = .ok (id, s)) : id < 2 ^ 32 := by
  by_cases hne : q = root
  case pos =>
    have hself : procNsId root root s = .ok (1, s) := ok_of_wp (wp_procNsId_self ⟨rfl, rfl⟩)
    cases hself.symm.trans (hne ▸ hid)
    decide
  case neg =>
    obtain ⟨v, hv⟩ := (nsMember_iff.mp hq).resolve_left hne
    cases (procNsId_of_inside hin hv hne).symm.trans hid
    exact hids q v hv.1

-- Every process of a namespace exists.
theorem NsMember.exists_get (ho : s.procs.get root = some o) (hq : NsMember s root q) :
    ∃ v, s.procs.get q = some v := by
  obtain rfl | ⟨v, hv⟩ := nsMember_iff.mp hq
  · exact ⟨o, ho⟩
  · exact ⟨v, hv.1⟩

-- For the path of a file, `openpath` looks for the process with what is left of the id.
theorem openpath_finds (ht : ProcTree s init c) (hin : NsInherited s) (ho : s.procs.get root = some o)
    (hpns : o.pns = root) (h : ProcPath path digits name type) : ∃ x, openpath path root s = .ok (x, s) ∧
      (∀ y, x = some y → ∃ q v, NsMember s root q ∧
        procNsId root q s = .ok (decimalValue digits % 2 ^ 32, s) ∧ s.procs.get q = some v ∧
        y = ⟨v.globalid, type⟩) ∧
      (x = none → ¬∃ q, NsMember s root q ∧ procNsId root q s = .ok (decimalValue digits % 2 ^ 32, s)) := by
  obtain ⟨x, hrun, hfound, hmissing⟩ := procNsByid_spec ht hin ho hpns (decimalValue digits % 2 ^ 32)
  rw [openpath_file h]
  cases x
  case none   =>
    refine ⟨none, ok_of_wp ?_, by simp, fun _ => hmissing.mp rfl⟩
    rw [wp_bind, wp_iff_of_ok hrun]
    exact wp_pure.mpr ⟨rfl, rfl⟩
  case some q =>
    obtain ⟨hq, hid⟩ := hfound q rfl
    obtain ⟨v, hv⟩ := hq.exists_get ho
    refine ⟨some ⟨v.globalid, type⟩, ok_of_wp ?_, fun y hy => ?_, by simp⟩
    · rw [wp_bind, wp_iff_of_ok hrun]
      simp [hv]
    · exact ⟨q, v, hq, hid, hv, (Option.some_inj.mp hy).symm⟩

-- `openpath` is exact, as long as no number which is too large for 32 bits becomes an id.
theorem openpathExact_iff (ht : ProcTree s init c) (hin : NsInherited s) (ho : s.procs.get root = some o)
    (hpns : o.pns = root) (hids : ∀ p v, s.procs.get p = some v → v.localid < 2 ^ 32)
    (hpath : path = [] ∨ path.head? = some slash) :
    OpenpathExact s root path ↔ ¬PathWraps s root path := by
  constructor
  case mp =>
    rintro ⟨x, hrun, hsome, -⟩ ⟨digits, name, type, q, hfile, hlarge, hq, hid⟩
    obtain ⟨y, hrun', -, hnone⟩ := openpath_finds ht hin ho hpns hfile
    cases hrun.symm.trans hrun'
    cases x
    case none   => exact hnone rfl ⟨q, hq, hid⟩
    case some h =>
      cases hsome h rfl
      case root hroot =>
        have := hfile.eq.symm.trans hroot
        simp [hfile.ne] at this
      case file hfile' hq' hid' _ =>
        obtain ⟨rfl, _⟩ := hfile.unique hfile'
        exact absurd (procNsId_lt hin hids hq' hid') (not_lt.mpr hlarge)
  case mpr =>
    intro hwraps
    by_cases hroot : path = [slash]
    case pos =>
      subst hroot
      refine ⟨some ⟨0, .root⟩, rfl, fun h hh => ?_, by simp⟩
      exact Option.some_inj.mp hh ▸ .root rfl
    case neg =>
      by_cases hfile : ∃ digits name type, ProcPath path digits name type
      case neg =>
        simp only [not_exists] at hfile
        refine ⟨none, by rw [openpath_rejected hpath hroot hfile]; rfl, by simp, fun _ h hopens => ?_⟩
        cases hopens
        case root hroot'       => exact hroot hroot'
        case file hfile' _ _ _ => exact hfile _ _ _ hfile'
      case pos =>
        obtain ⟨digits, name, type, hfile⟩ := hfile
        obtain ⟨x, hrun, hsome, hnone⟩ := openpath_finds ht hin ho hpns hfile
        -- The number is an id only if it fits into 32 bits.
        have hfits {q : Pid} (hq : NsMember s root q)
            (hid : procNsId root q s = .ok (decimalValue digits % 2 ^ 32, s)) :
            decimalValue digits % 2 ^ 32 = decimalValue digits := by
          refine Nat.mod_eq_of_lt (not_le.mp fun hlarge => ?_)
          exact hwraps ⟨digits, name, type, q, hfile, hlarge, hq, hid⟩
        refine ⟨x, hrun, fun h hx => ?_, fun hx h hopens => ?_⟩
        · obtain ⟨q, v, hq, hid, hv, rfl⟩ := hsome h hx
          exact .file hfile hq (hfits hq hid ▸ hid) hv
        · cases hopens
          case root hroot'            => exact hroot hroot'
          case file hfile' hq hid _ =>
            obtain ⟨rfl, _⟩ := hfile.unique hfile'
            refine hnone hx ⟨_, hq, ?_⟩
            rwa [Nat.mod_eq_of_lt (procNsId_lt hin hids hq hid)]

theorem siblingTree_ids (p : Pid) (v : Proc) (h : siblingTree.procs.get p = some v) :
    v.localid < 2 ^ 32 := by
  have : p < 5 := Heap.lt_size h
  interval_cases p
  all_goals simp [siblingTree, Heap.get] at h; subst h; decide

-- The path is "/3/mem".
theorem openpathExact_small : OpenpathExact siblingTree 0 [47, 51, 47, 109, 101, 109] ↔
    ¬PathWraps siblingTree 0 [47, 51, 47, 109, 101, 109] := by
  have ho : siblingTree.procs.get 0 = some { child := some 1, localid := 1, nextlid := 6 } := rfl
  exact openpathExact_iff siblingTree_tree siblingTree_inherited ho rfl siblingTree_ids (.inr rfl)

-- The path "/4294967297/mem" opens the memory of the process with the id 1.
def wrappingPath : List UInt8 :=
  [47, 52, 50, 57, 52, 57, 54, 55, 50, 57, 55, 47, 109, 101, 109]

theorem openpath_wraps :
    openpath wrappingPath 0 siblingTree = .ok (some ⟨0, .mem⟩, siblingTree) ∧
    ¬∀ (s : State) (init root : Pid) (o : Proc) (c : Forest Pid) (path : List UInt8),
      ProcTree s init c → NsInherited s → s.procs.get root = some o → o.pns = root →
      (∀ p v, s.procs.get p = some v → v.localid < 2 ^ 32) → path.head? = some slash →
      OpenpathExact s root path := by
  have hrun : openpath wrappingPath 0 siblingTree = .ok (some ⟨0, .mem⟩, siblingTree) := rfl
  refine ⟨hrun, fun h => ?_⟩
  have ho : siblingTree.procs.get 0 = some { child := some 1, localid := 1, nextlid := 6 } := rfl
  obtain ⟨x, hrun', hsome, _⟩ :=
    h siblingTree 0 0 _ _ wrappingPath siblingTree_tree siblingTree_inherited ho rfl siblingTree_ids rfl
  cases hrun.symm.trans hrun'
  have hopens := hsome _ rfl
  generalize hy : (⟨0, .mem⟩ : Phandle) = y at hopens
  cases hopens
  case root => cases hy
  case file hfile hq hid _ =>
    have hlt := procNsId_lt siblingTree_inherited siblingTree_ids hq hid
    have hpath : ProcPath wrappingPath [52, 50, 57, 52, 57, 54, 55, 50, 57, 55] nameMem .mem :=
      ⟨rfl, by simp, by simp [isdigit], by decide⟩
    obtain ⟨rfl, _⟩ := hfile.unique hpath
    exact absurd hlt (by decide)

end Openpath
end Camellia
