import Mathlib.Data.List.Nodup
import Mathlib.Data.List.Perm.Basic
import Mathlib.Logic.Relation
import Mathlib.Tactic.Common

-- The pointers of a node in a tree whose nodes know their first child, their next sibling and their
-- parent.
structure Links (α : Type*) where
  child   : Option α
  sibling : Option α
  parent  : Option α

-- The siblings starting at a node, and everything below them.
inductive Forest (α : Type*)
  | nil
  | node (a : α) (child sibling : Forest α)
  deriving DecidableEq

namespace Forest

variable {α : Type*}

def head : Forest α → Option α
  | nil        => none
  | node a _ _ => a

-- The nodes of a forest in the order of a depth-first search.
def nodes : Forest α → List α
  | nil        => []
  | node a c s => a :: (c.nodes ++ s.nodes)

-- The forest is laid out by the pointers `l`, as the children of `parent`.
def Linked (l : α → Option (Links α)) (parent : Option α) : Forest α → Prop
  | nil        => True
  | node a c s =>
    l a = some ⟨c.head, s.head, parent⟩ ∧ c.Linked l (some a) ∧ s.Linked l parent

-- What surrounds a forest: the ancestors of its nodes from the nearest on, each together with the
-- siblings that follow it.
abbrev Frames (α : Type*) := List (α × Forest α)

namespace Frames

-- The parent of the surrounded forest, if `top` is the parent of the whole forest.
def parent (top : Option α) : Frames α → Option α
  | []          => top
  | (a, _) :: _ => a

def ancestors (fs : Frames α) : List α :=
  fs.map Prod.fst

-- The nodes which a depth-first search visits after the surrounded forest.
def rest : Frames α → List α
  | []           => []
  | (_, s) :: fs => s.nodes ++ rest fs

def Linked (l : α → Option (Links α)) (top : Option α) : Frames α → Prop
  | []           => True
  | (a, s) :: fs =>
    (∃ c, l a = some ⟨c, s.head, parent top fs⟩) ∧ s.Linked l (parent top fs) ∧ Linked l top fs

end Frames

-- The forest occurs in the whole forest `r`, surrounded by the given frames.
inductive Focus (r : Forest α) : Forest α → Frames α → Prop
  | root : Focus r r []
  | down : Focus r (node a c s) fs → Focus r c ((a, s) :: fs)
  | next : Focus r (node a c s) fs → Focus r s fs

variable {l l' : α → Option (Links α)} {par : Option α} {r f c s : Forest α} {fs : Frames α}
variable {a b q : α}

theorem Linked.congr (h : f.Linked l par) (hl : ∀ a ∈ f.nodes, l a = l' a) : f.Linked l' par := by
  induction f generalizing par
  case nil => trivial
  case node a c s hc hs =>
    have ⟨ha, hlc, hls⟩ := h
    refine ⟨hl a (by simp [nodes]) ▸ ha, hc hlc fun b hb => hl b ?_, hs hls fun b hb => hl b ?_⟩
    all_goals simp [nodes, hb]

theorem Linked.get (h : f.Linked l par) (ha : a ∈ f.nodes) : ∃ v, l a = some v := by
  induction f generalizing par
  case nil => simp [nodes] at ha
  case node b c s hc hs =>
    have ⟨hb, hlc, hls⟩ := h
    simp only [nodes, List.mem_cons, List.mem_append] at ha
    obtain rfl | ha | ha := ha
    · exact ⟨_, hb⟩
    · exact hc hlc ha
    · exact hs hls ha

-- The parent of a node is in the forest, unless the node is at the forest's top.
theorem Linked.parent (h : f.Linked l par) (ha : a ∈ f.nodes) (hv : l a = some v) :
    v.parent = par ∨ ∃ b ∈ f.nodes, v.parent = some b := by
  induction f generalizing par
  case nil => simp [nodes] at ha
  case node b c s hc hs =>
    have ⟨hb, hlc, hls⟩ := h
    simp only [nodes, List.mem_cons, List.mem_append] at ha ⊢
    obtain rfl | ha | ha := ha
    · exact .inl <| by simp [← Option.some.inj (hb.symm.trans hv)]
    · cases hc hlc ha
      case inl h => exact .inr ⟨b, .inl rfl, h⟩
      case inr h => exact .inr ⟨h.choose, .inr <| .inl h.choose_spec.1, h.choose_spec.2⟩
    · cases hs hls ha
      case inl h => exact .inl h
      case inr h => exact .inr ⟨h.choose, .inr <| .inr h.choose_spec.1, h.choose_spec.2⟩

theorem Frames.parent_mem_ancestors (h : fs.parent none = some a) : a ∈ fs.ancestors := by
  cases fs
  case nil => simp [Frames.parent] at h
  case cons => simp_all [Frames.parent, Frames.ancestors]

namespace Focus

theorem linked (h : Focus r f fs) (hr : r.Linked l par) :
    f.Linked l (fs.parent par) ∧ fs.Linked l par := by
  induction h
  case root => exact ⟨hr, trivial⟩
  case down hi =>
    have ⟨⟨ha, hc, hs⟩, hf⟩ := hi
    exact ⟨hc, ⟨_, ha⟩, hs, hf⟩
  case next hi =>
    have ⟨⟨_, _, hs⟩, hf⟩ := hi
    exact ⟨hs, hf⟩

-- The focused nodes, the nodes that follow and the ancestors are all different.
theorem nodup (h : Focus r f fs) (hr : r.nodes.Nodup) :
    (f.nodes ++ (fs.rest ++ fs.ancestors)).Nodup := by
  induction h
  case root => simpa [Frames.rest, Frames.ancestors] using hr
  case down a c s fs _ hi =>
    refine (List.Perm.nodup_iff ?_).mp hi
    simp only [nodes, Frames.rest, Frames.ancestors, List.map_cons, List.cons_append,
      ← List.append_assoc]
    exact List.perm_middle.symm
  case next hi =>
    refine hi.sublist ?_
    simp only [nodes, List.cons_append, List.append_assoc]
    exact .trans (List.sublist_append_right _ _) (List.sublist_cons_self _ _)

-- The siblings that follow the nearest ancestor are in focus one level above.
theorem up (h : Focus r f ((a, s) :: fs)) : Focus r s fs := by
  generalize hg : (a, s) :: fs = gs at h
  induction h
  case root => contradiction
  case down h _ =>
    cases hg
    exact h.next
  case next hi => exact hi hg

theorem exists_of_mem (h : Focus r f fs) (ha : a ∈ f.nodes) :
    ∃ c s fs', Focus r (node a c s) fs' := by
  induction f generalizing fs
  case nil => simp [nodes] at ha
  case node b c s hc hs =>
    simp only [nodes, List.mem_cons, List.mem_append] at ha
    obtain rfl | ha | ha := ha
    · exact ⟨c, s, fs, h⟩
    · exact hc h.down ha
    · exact hs h.next ha

theorem mem (h : Focus r f fs) (ha : a ∈ f.nodes ∨ a ∈ fs.rest ∨ a ∈ fs.ancestors) :
    a ∈ r.nodes := by
  induction h
  case root => simpa [Frames.rest, Frames.ancestors] using ha
  case down b c s fs _ hi =>
    refine hi ?_
    simp only [nodes, Frames.rest, Frames.ancestors, List.map_cons, List.mem_cons,
      List.mem_append] at ha ⊢
    tauto
  case next hi =>
    refine hi ?_
    simp only [nodes, List.mem_cons, List.mem_append] at ha ⊢
    tauto

-- No node outside of a focused forest is the child of a node inside of it.
theorem parent_not_mem (h : Focus r f fs) (hr : r.Linked l none) (hn : r.nodes.Nodup)
    (hq : q ∈ r.nodes) (hf : q ∉ f.nodes) (hv : l q = some v) (hp : v.parent = some b) :
    b ∉ f.nodes := by
  induction h
  case root => contradiction
  case down a c s fs h hi =>
    have ⟨⟨ha, hc, hs⟩, _⟩ := h.linked hr
    have hd := h.nodup hn
    simp only [nodes, List.cons_append, List.nodup_cons, List.mem_append, List.mem_cons,
      List.nodup_append] at hd hi
    have hup : ∀ x, fs.parent none = some x → x ∈ fs.ancestors := fun _ => Frames.parent_mem_ancestors
    by_cases hqa : q = a
    case pos => grind
    case neg =>
      by_cases hqs : q ∈ s.nodes
      case pos => cases hs.parent hqs hv <;> grind
      case neg => grind
  case next a c s fs h hi =>
    have ⟨⟨ha, hc, hs⟩, _⟩ := h.linked hr
    have hd := h.nodup hn
    simp only [nodes, List.cons_append, List.nodup_cons, List.mem_append, List.mem_cons,
      List.nodup_append] at hd hi
    have hup : ∀ x, fs.parent none = some x → x ∈ fs.ancestors := fun _ => Frames.parent_mem_ancestors
    by_cases hqa : q = a
    case pos => grind
    case neg =>
      by_cases hqc : q ∈ c.nodes
      case pos => cases hc.parent hqc hv <;> grind
      case neg => grind

end Focus

-- `b` is the parent of `a`.
def IsParent (l : α → Option (Links α)) (b a : α) : Prop :=
  ∃ v, l a = some v ∧ v.parent = some b

theorem Linked.descendant (h : f.Linked l (some b)) (hb : Relation.ReflTransGen (IsParent l) a b)
    (hq : q ∈ f.nodes) : Relation.TransGen (IsParent l) a q := by
  generalize hp : some b = par at h
  induction f generalizing par b
  case nil => simp [nodes] at hq
  case node d c s hc hs =>
    have ⟨hd, hlc, hls⟩ := h
    have hbd := Relation.TransGen.tail' hb ⟨_, hd, hp.symm⟩
    simp only [nodes, List.mem_cons, List.mem_append] at hq
    obtain rfl | hq | hq := hq
    · exact hbd
    · exact hc hbd.to_reflTransGen hq _ rfl hlc
    · exact hs hb hq _ hp hls

-- The nodes below `a` are the descendants of `a`.
theorem Focus.mem_child_iff (h : Focus r (node a c s) fs) (hr : r.Linked l none)
    (hn : r.nodes.Nodup) (hall : ∀ q v, l q = some v → q ∈ r.nodes) :
    q ∈ c.nodes ↔ Relation.TransGen (IsParent l) a q := by
  constructor
  case mp => exact (h.linked hr).1.2.1.descendant .refl
  case mpr =>
    have hd := h.down.nodup hn
    simp only [Frames.rest, Frames.ancestors, List.map_cons, List.nodup_append,
      List.mem_append, List.mem_cons] at hd
    have hchild : ∀ q b, IsParent l b q → b = a ∨ b ∈ c.nodes → q ∈ c.nodes := by
      intro q b ⟨v, hv, hp⟩ hb
      by_contra hq
      cases hb
      case inr hb => exact h.down.parent_not_mem hr hn (hall q v hv) hq hv hp hb
      case inl hb =>
        subst hb
        have ⟨⟨ha, _, hs⟩, _⟩ := h.linked hr
        have hup : ∀ x, fs.parent none = some x → x ∈ fs.ancestors :=
          fun _ => Frames.parent_mem_ancestors
        have hd' := h.nodup hn
        simp only [nodes, List.cons_append, List.nodup_cons, List.mem_append] at hd'
        by_cases hqs : q ∈ (node b c s).nodes
        case neg => exact h.parent_not_mem hr hn (hall q v hv) hqs hv hp (by simp [nodes])
        case pos =>
          simp only [nodes, List.mem_cons, List.mem_append] at hqs
          obtain rfl | hqs | hqs := hqs
          · grind
          · exact hq hqs
          · cases hs.parent hqs hv <;> grind
    intro hq
    induction hq
    case single hq => exact hchild _ _ hq (.inl rfl)
    case tail hb hi => exact hchild _ _ hb (.inr hi)

section Points

variable {v : Links α}

-- `a` points to `b` as its first child or as its next sibling.
def Points (l : α → Option (Links α)) (a b : α) : Prop :=
  ∃ v, l a = some v ∧ (v.child = some b ∨ v.sibling = some b)

theorem head_mem (h : f.head = some a) : a ∈ f.nodes := by
  cases f
  case nil  => contradiction
  case node => simp_all [head, nodes]

theorem head_not_mem_tail (h : f.head = some a) (hn : f.nodes.Nodup) : a ∉ f.nodes.tail := by
  cases f
  case nil  => contradiction
  case node =>
    obtain rfl := Option.some_inj.mp h
    exact (List.nodup_cons.mp hn).1

theorem Linked.points_tail (h : f.Linked l par) (ha : a ∈ f.nodes) (hp : Points l a b) :
    b ∈ f.nodes.tail := by
  obtain ⟨v, hv, hp⟩ := hp
  induction f generalizing par
  case nil => simp [nodes] at ha
  case node d c s hc hs =>
    have ⟨hd, hlc, hls⟩ := h
    simp only [nodes, List.mem_cons, List.mem_append, List.tail_cons] at ha ⊢
    obtain rfl | ha | ha := ha
    · obtain rfl := Option.some_inj.mp (hd.symm.trans hv)
      exact hp.imp head_mem head_mem
    · exact .inl (List.mem_of_mem_tail (hc hlc ha))
    · exact .inr (List.mem_of_mem_tail (hs hls ha))

-- Every node but the first one is pointed to by one other node, and only once.
theorem Linked.points_inj (h : f.Linked l par) (hn : f.nodes.Nodup) (ha : a ∈ f.nodes)
    (hb : b ∈ f.nodes) (hpa : Points l a q) (hpb : Points l b q) : a = b := by
  induction f generalizing par
  case nil => simp [nodes] at ha
  case node d c s hc hs =>
    have ⟨hd, hlc, hls⟩ := h
    simp only [nodes, List.nodup_cons, List.nodup_append, List.mem_append, not_or] at hn
    have hdis (hqc : q ∈ c.nodes) (hqs : q ∈ s.nodes) : False := hn.2.2.2 q hqc q hqs rfl
    have hroot {x y : α} (hx : x = d) (hpx : Points l x q) (hy : y ∈ c.nodes ∨ y ∈ s.nodes)
        (hpy : Points l y q) : x = y := by
      exfalso
      obtain ⟨v, hv, hp⟩ := hpx
      obtain rfl := Option.some_inj.mp ((hx ▸ hd).symm.trans hv)
      obtain hy | hy := hy
      · have ht := hlc.points_tail hy hpy
        obtain hp | hp := hp
        · exact head_not_mem_tail hp hn.2.1 ht
        · exact hdis (List.mem_of_mem_tail ht) (head_mem hp)
      · have ht := hls.points_tail hy hpy
        obtain hp | hp := hp
        · exact hdis (head_mem hp) (List.mem_of_mem_tail ht)
        · exact head_not_mem_tail hp hn.2.2.1 ht
    have hcross {x y : α} (hx : x ∈ c.nodes) (hpx : Points l x q) (hy : y ∈ s.nodes)
        (hpy : Points l y q) : False :=
      hdis (List.mem_of_mem_tail (hlc.points_tail hx hpx)) (List.mem_of_mem_tail (hls.points_tail hy hpy))
    simp only [nodes, List.mem_cons, List.mem_append] at ha hb
    obtain ha | ha | ha := ha <;> obtain hb | hb | hb := hb
    · exact ha.trans hb.symm
    · exact hroot ha hpa (.inl hb) hpb
    · exact hroot ha hpa (.inr hb) hpb
    · exact (hroot hb hpb (.inl ha) hpa).symm
    · exact hc hlc hn.2.1 ha hb
    · exact (hcross ha hpa hb hpb).elim
    · exact (hroot hb hpb (.inr ha) hpa).symm
    · exact (hcross hb hpb ha hpa).elim
    · exact hs hls hn.2.2.1 ha hb

-- No node is the first child and the next sibling of the same node.
theorem Linked.child_ne_sibling (h : f.Linked l par) (hn : f.nodes.Nodup) (ha : a ∈ f.nodes)
    (hv : l a = some v) (hc : v.child = some b) : v.sibling ≠ some b := by
  induction f generalizing par
  case nil => simp [nodes] at ha
  case node d c s hic his =>
    have ⟨hd, hlc, hls⟩ := h
    simp only [nodes, List.nodup_cons, List.nodup_append] at hn
    simp only [nodes, List.mem_cons, List.mem_append] at ha
    obtain rfl | ha | ha := ha
    · obtain rfl := Option.some_inj.mp (hd.symm.trans hv)
      exact fun hs => hn.2.2.2 b (head_mem hc) b (head_mem hs) rfl
    · exact hic hlc hn.2.1 ha
    · exact his hls hn.2.2.1 ha

-- What a node points to is in the forest, too.
theorem Linked.points (h : f.Linked l par) (ha : a ∈ f.nodes) (hp : Points l a b) : b ∈ f.nodes :=
  List.mem_of_mem_tail (h.points_tail ha hp)

-- `b` is on the list of siblings which starts at `o`.
inductive Siblings (l : α → Option (Links α)) : Option α → α → Prop
  | here {b : α} : Siblings l (some b) b
  | next {a b : α} {v : Links α} : l a = some v → Siblings l v.sibling b → Siblings l (some a) b

-- A node is on the list of the children of its parent.
theorem Linked.siblings (h : f.Linked l par) (ha : a ∈ f.nodes) (hv : l a = some v) :
    v.parent = par ∧ Siblings l f.head a ∨
      ∃ b u, l b = some u ∧ v.parent = some b ∧ Siblings l u.child a := by
  induction f generalizing par
  case nil => simp [nodes] at ha
  case node d c s hic his =>
    have ⟨hd, hlc, hls⟩ := h
    simp only [nodes, List.mem_cons, List.mem_append] at ha
    obtain rfl | ha | ha := ha
    · obtain rfl := Option.some_inj.mp (hd.symm.trans hv)
      exact .inl ⟨rfl, .here⟩
    · cases hic hlc ha
      case inl h => exact .inr ⟨d, _, hd, h⟩
      case inr h => exact .inr h
    · cases his hls ha
      case inl h => exact .inl ⟨h.1, .next hd h.2⟩
      case inr h => exact .inr h

end Points

section Change

variable [DecidableEq α] {v : Links α}

-- The node `b` becomes the first child of `a`.
def insert (a b : α) : Forest α → Forest α
  | nil        => nil
  | node d c s => if d = a then node d (node b nil c) s else node d (c.insert a b) (s.insert a b)

-- The leaf `a` is taken out of the forest.
def erase (a : α) : Forest α → Forest α
  | nil        => nil
  | node d c s => if d = a then s else node d (c.erase a) (s.erase a)

-- The pointers after the insertion.
def attach (l : α → Option (Links α)) (a b : α) (q : α) : Option (Links α) :=
  if q = b then (l a).map fun v => ⟨none, v.child, some a⟩
  else if q = a then (l a).map ({ · with child := some b })
  else l q

-- The pointers after the removal of a node with the next sibling `sib`.
def detach (l : α → Option (Links α)) (a : α) (sib : Option α) (q : α) : Option (Links α) :=
  if q = a then none
  else (l q).map fun v =>
    ⟨if v.child = some a then sib else v.child, if v.sibling = some a then sib else v.sibling, v.parent⟩

@[simp]
theorem head_insert : (f.insert a b).head = f.head := by
  cases f
  case nil  => rfl
  case node =>
    simp only [insert]
    split <;> rfl

theorem insert_of_not_mem (h : a ∉ f.nodes) : f.insert a b = f := by
  induction f
  case nil => rfl
  case node d c s hc hs =>
    simp only [nodes, List.mem_cons, List.mem_append, not_or] at h
    rw [insert, if_neg (Ne.symm h.1), hc h.2.1, hs h.2.2]

theorem nodes_insert (hn : f.nodes.Nodup) (ha : a ∈ f.nodes) :
    (f.insert a b).nodes.Perm (b :: f.nodes) := by
  induction f
  case nil => simp [nodes] at ha
  case node d c s hc hs =>
    simp only [nodes, List.nodup_cons, List.nodup_append, List.mem_append, not_or] at hn
    simp only [nodes, List.mem_cons, List.mem_append] at ha
    by_cases hd : d = a
    case pos =>
      simp only [insert, if_pos hd, nodes, List.nil_append, List.cons_append]
      exact .swap _ _ _
    case neg =>
      simp only [insert, if_neg hd, nodes]
      refine .trans (.cons _ ?_) (.swap _ _ _)
      obtain ha | ha | ha := ha
      · exact absurd ha.symm hd
      · rw [insert_of_not_mem fun hs => hn.2.2.2 a ha a hs rfl]
        exact (hc hn.2.1 ha).append_right _
      · rw [insert_of_not_mem fun hc => hn.2.2.2 a hc a ha rfl]
        exact ((hs hn.2.2.1 ha).append_left _).trans List.perm_middle

theorem Linked.insert (h : f.Linked l par) (hn : f.nodes.Nodup) (hb : b ∉ f.nodes) :
    (f.insert a b).Linked (attach l a b) par := by
  induction f generalizing par
  case nil => trivial
  case node d c s hc hs =>
    have ⟨hd, hlc, hls⟩ := h
    simp only [nodes, List.nodup_cons, List.nodup_append, List.mem_append, not_or] at hn
    simp only [nodes, List.mem_cons, List.mem_append, not_or] at hb
    by_cases hda : d = a
    case pos =>
      subst hda
      have hcongr {q : α} (hq : q ≠ d) (hqb : q ≠ b) : l q = attach l d b q := by simp [attach, hq, hqb]
      simp only [Forest.insert, if_true]
      refine ⟨by simp [attach, Ne.symm hb.1, hd, head], ⟨by simp [attach, hd, head], trivial, ?_⟩, ?_⟩
      · exact hlc.congr fun q hq => hcongr (fun h => hn.1.1 (h ▸ hq)) fun h => hb.2.1 (h ▸ hq)
      · exact hls.congr fun q hq => hcongr (fun h => hn.1.2 (h ▸ hq)) fun h => hb.2.2 (h ▸ hq)
    case neg =>
      simp only [Forest.insert, if_neg hda]
      refine ⟨?_, hc hlc hn.2.1 hb.2.1, hs hls hn.2.2.1 hb.2.2⟩
      simp [attach, Ne.symm hb.1, hda, hd]

theorem nodes_erase (h : f.Linked l par) (hn : f.nodes.Nodup) (ha : l a = some v)
    (hc : v.child = none) : (f.erase a).nodes = f.nodes.filter (· ≠ a) := by
  induction f generalizing par
  case nil => rfl
  case node d c s hic his =>
    have ⟨hd, hlc, hls⟩ := h
    simp only [nodes, List.nodup_cons, List.nodup_append, List.mem_append, not_or] at hn
    by_cases hda : d = a
    case pos =>
      subst hda
      obtain rfl := Option.some_inj.mp (hd.symm.trans ha)
      cases c
      case node => contradiction
      case nil  =>
        have hne : ∀ q ∈ s.nodes, decide (q ≠ d) = true := fun q hq => by
          simpa using fun h : q = d => hn.1.2 (h ▸ hq)
        simp only [erase, nodes, if_true, List.nil_append]
        rw [List.filter_cons_of_neg (by simp), List.filter_eq_self.mpr hne]
    case neg => simp [erase, nodes, hda, hic hlc hn.2.1, his hls hn.2.2.1]

theorem head_erase (h : f.Linked l par) (ha : l a = some v) :
    (f.erase a).head = if f.head = some a then v.sibling else f.head := by
  cases f
  case nil => simp [erase, head]
  case node d c s =>
    by_cases hda : d = a
    case pos =>
      subst hda
      obtain rfl := Option.some_inj.mp (h.1.symm.trans ha)
      simp [erase, head]
    case neg => simp [erase, head, hda]

theorem erase_of_not_mem (h : a ∉ f.nodes) : f.erase a = f := by
  induction f
  case nil => rfl
  case node d c s hc hs =>
    simp only [nodes, List.mem_cons, List.mem_append, not_or] at h
    rw [erase, if_neg (Ne.symm h.1), hc h.2.1, hs h.2.2]

theorem Linked.erase (h : f.Linked l par) (hn : f.nodes.Nodup) (ha : l a = some v) :
    (f.erase a).Linked (detach l a v.sibling) par := by
  induction f generalizing par
  case nil => trivial
  case node d c s hic his =>
    have ⟨hd, hlc, hls⟩ := h
    simp only [nodes, List.nodup_cons, List.nodup_append, List.mem_append, not_or] at hn
    by_cases hda : d = a
    case pos =>
      simp only [Forest.erase, if_pos hda]
      rw [← erase_of_not_mem (a := a) (f := s) (hda ▸ hn.1.2)]
      exact his hls hn.2.2.1
    case neg =>
      simp only [Forest.erase, if_neg hda]
      refine ⟨?_, hic hlc hn.2.1, his hls hn.2.2.1⟩
      simp [detach, hda, hd, head_erase hlc ha, head_erase hls ha]

end Change

end Forest
