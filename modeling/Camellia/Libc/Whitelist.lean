import Camellia.Flags
import Camellia.Libk.Path

namespace Camellia

-- `:ro`
def roSuffix : List UInt8 := [58, 114, 111]

-- Returns the path without its suffix, and whether the suffix was `:ro`.
def suffixParse (path : List UInt8) : List UInt8 × Bool :=
  if 3 ≤ path.length ∧ path.drop (path.length - 3) = roSuffix then
    (path.take (path.length - 3), true)
  else
    (path, false)

-- Checks if a path is a prefix of another path.
def prefixMatch (pre full : List UInt8) : Bool :=
  if full.length < pre.length then
    false
  else if full.length = pre.length then
    full == pre
  else
    1 ≤ pre.length && pre[pre.length - 1]? == some slash && full.take pre.length == pre

-- How `fs_whitelist` answers an open request.
inductive WhitelistReply
  | eacces
  -- `forward_open`: the driver opens the same path, with the same flags, in its own namespace.
  | forward (path : List UInt8) (flags : Flags)
  | inject (path : List UInt8)
  | deny
  deriving DecidableEq

-- The loop over the entries of the whitelist, which sets `error`, `passthru` and `inject`.
def whitelistScan (path : List UInt8) (flags : Flags) :
    List (List UInt8) → (inject : Bool) → Bool × Bool × Bool
  | [], inject => (false, false, inject)
  | entry :: entries, inject =>
    let (pre, ro) := suffixParse entry
    if prefixMatch pre path then
      (ro && openWriteable flags, true, inject)
    else
      whitelistScan path flags entries (inject || prefixMatch path pre)

def whitelistOpen (whitelist : List (List UInt8)) (path : List UInt8) (flags : Flags) :
    WhitelistReply :=
  let (error, passthru, inject) := whitelistScan path flags whitelist false
  if error then
    .eacces
  else if passthru then
    .forward path flags
  else if inject then
    .inject path
  else
    .deny

-- `buflen` in `fs_whitelist`.
def whitelistBuflen : ℕ := 1024

-- The part of the path of an open request that `vfs_backend_user_accept` copies into the buffer of
-- the driver.
def whitelistAccept (whitelist : List (List UInt8)) (path : List UInt8) (flags : Flags) :
    WhitelistReply :=
  whitelistOpen whitelist (path.take whitelistBuflen) flags

section Whitelist

variable {pre full path : List UInt8} {flags : Flags} {whitelist : List (List UInt8)}

-- The path is the one of the entry, or lies in the directory of the entry.
structure Whitelisted (entry path : List UInt8) : Prop where
  intro :: under : path = (suffixParse entry).fst ∨
    ∃ dir below, (suffixParse entry).fst = dir ++ [slash] ∧ path = dir ++ slash :: below

theorem prefixMatch_iff :
    prefixMatch pre full = true ↔
      full = pre ∨ ∃ dir below, pre = dir ++ [slash] ∧ below ≠ [] ∧ full = dir ++ slash :: below := by
  simp only [prefixMatch]
  constructor
  case mp =>
    intro h
    split at h
    case isTrue => simp at h
    case isFalse hle =>
      split at h
      case isTrue => exact .inl (by simpa using h)
      case isFalse hne =>
        simp only [Bool.and_eq_true, decide_eq_true_eq, beq_iff_eq] at h
        obtain rfl | ⟨dir, c, rfl⟩ := pre.eq_nil_or_concat
        case inl => simp at h
        case inr =>
          have ⟨⟨_, hc⟩, ht⟩ := h
          simp only [List.concat_eq_append, List.length_append, List.length_singleton,
            Nat.add_sub_cancel, List.getElem?_append_right le_rfl, Nat.sub_self,
            List.getElem?_cons_zero, Option.some.injEq] at hc ht hle hne
          have hd : full.drop (dir.length + 1) ≠ [] := by
            rw [ne_eq, List.drop_eq_nil_iff]
            omega
          refine .inr ⟨dir, full.drop (dir.length + 1), by simp [hc], hd, ?_⟩
          conv_lhs => rw [← List.take_append_drop (dir.length + 1) full, ht, hc]
          simp
  case mpr =>
    rintro (rfl | ⟨dir, below, rfl, hb, rfl⟩)
    · simp
    · have := List.length_pos_iff.mpr hb
      have ht : dir ++ slash :: below = dir ++ [slash] ++ below := by simp
      have hl : (dir ++ slash :: below).take (dir.length + 1) = dir ++ [slash] := by
        rw [ht]
        exact List.take_left' (by simp)
      simp [hl, hb]

theorem Whitelisted.of_prefixMatch {entry : List UInt8}
    (h : prefixMatch (suffixParse entry).fst path = true) : Whitelisted entry path := by
  rcases prefixMatch_iff.mp h with h | ⟨dir, below, hp, _, hb⟩
  · exact ⟨.inl h⟩
  · exact ⟨.inr ⟨dir, below, hp, hb⟩⟩

theorem prefixMatch_of_whitelisted {entry : List UInt8} (h : Whitelisted entry path) :
    prefixMatch (suffixParse entry).fst path = true := by
  refine prefixMatch_iff.mpr ?_
  rcases h with ⟨h | ⟨dir, below, hp, hb⟩⟩
  · exact .inl h
  · by_cases hn : below = []
    case pos => exact .inl (by rw [hb, hp, hn])
    case neg => exact .inr ⟨dir, below, hp, hn, hb⟩

-- The first entry of the whitelist which covers the path.
structure FirstEntry (whitelist : List (List UInt8)) (entry path : List UInt8) : Prop where
  mem   : entry ∈ whitelist
  first : ∃ before after, whitelist = before ++ entry :: after ∧ ∀ e ∈ before, ¬Whitelisted e path
  under : Whitelisted entry path

theorem whitelistScan_passthru {inject error inject' : Bool}
    (h : whitelistScan path flags whitelist inject = (error, true, inject')) :
    ∃ entry, FirstEntry whitelist entry path ∧
      error = ((suffixParse entry).snd && openWriteable flags) := by
  induction whitelist generalizing inject
  case nil => simp [whitelistScan] at h
  case cons entry entries hi =>
    simp only [whitelistScan] at h
    split at h
    case isTrue hm =>
      simp only [Prod.mk.injEq, true_and] at h
      exact ⟨entry, ⟨by simp, ⟨[], entries, by simp⟩, .of_prefixMatch hm⟩, h.left.symm⟩
    case isFalse hm =>
      have ⟨e, ⟨hmem, ⟨before, after, hw, hb⟩, hu⟩, he⟩ := hi h
      refine ⟨e, ⟨by simp [hmem], ⟨entry :: before, after, by simp [hw], ?_⟩, hu⟩, he⟩
      intro e' he'
      cases he'
      case head   => exact fun hw => hm (prefixMatch_of_whitelisted hw)
      case tail h => exact hb e' h

-- The driver only forwards the path it was asked for, and only as the first entry that covers the
-- path permits.
theorem whitelistOpen_forward {path' : List UInt8} {flags' : Flags}
    (h : whitelistOpen whitelist path flags = .forward path' flags') :
    path' = path ∧ flags' = flags ∧ ∃ entry, FirstEntry whitelist entry path ∧
      ((suffixParse entry).snd = true → flags.has OPEN_WRITE = false) := by
  simp only [whitelistOpen] at h
  generalize hs : whitelistScan path flags whitelist false = r at h
  obtain ⟨error, passthru, inject⟩ := r
  cases error <;> cases passthru <;> cases inject <;> simp at h
  all_goals
    have ⟨entry, hf, he⟩ := whitelistScan_passthru hs
    refine ⟨h.left.symm, h.right.symm, entry, hf, fun hro => ?_⟩
    simpa [hro, openWriteable] using he.symm

end Whitelist
end Camellia
