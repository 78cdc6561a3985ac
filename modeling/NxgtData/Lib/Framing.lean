import Mathlib.Data.List.Basic

/-!
Blocks that start with their own length. The length is read off a beginning, and
more of the sequence never changes what was read; so a sequence starts with one
block at most, and of the lists of blocks it starts with one goes on with every
other.
-/
namespace NxgtData

/-- What a sequence starts with says of the length of its first block. -/
structure Framing (α : Type) where
  size : List α → Option Nat
  size_append : ∀ {s n}, size s = some n → ∀ t, size (s ++ t) = some n
  size_pos : ∀ {s n}, size s = some n → 0 < n

namespace Framing

variable {α : Type} (f : Framing α)

def IsBlock (b : List α) : Prop := f.size b = some b.length

def Framed (blocks : List (List α)) : Prop := ∀ b ∈ blocks, f.IsBlock b

/-- The sequence starts with no block. -/
def Ends (s : List α) : Prop := ∀ b, f.IsBlock b → ¬ b <+: s

/-- The blocks are the longest list of blocks the sequence starts with. -/
structure Longest (s : List α) (blocks : List (List α)) : Prop where
  framed : f.Framed blocks
  starts : blocks.flatten <+: s
  most : ∀ other, f.Framed other → other.flatten <+: s → other <+: blocks

variable {f} {b c s t : List α} {blocks other : List (List α)}

theorem IsBlock.size_of_prefix (h : f.IsBlock b) (starts : b <+: s) :
    f.size s = some b.length := by
  obtain ⟨t, rfl⟩ := starts
  exact f.size_append h t

theorem IsBlock.unique (hb : f.IsBlock b) (hc : f.IsBlock c) (mine : b <+: s)
    (theirs : c <+: s) : b = c := by
  have lengths := Option.some.inj
    ((hb.size_of_prefix mine).symm.trans (hc.size_of_prefix theirs))
  have starts := List.prefix_of_prefix_length_le mine theirs (Nat.le_of_eq lengths)
  exact starts.eq_of_length lengths

theorem ends_nil : f.Ends [] := by
  intro b block starts
  cases List.prefix_nil.mp starts
  exact absurd (f.size_pos block) (Nat.lt_irrefl 0)

/-- A sequence whose first length cannot be read starts with no block. -/
theorem ends_of_size (none : f.size s = none) : f.Ends s := by
  intro b block starts
  rw [block.size_of_prefix starts] at none
  cases none

/-- A sequence shorter than its first block starts with none. -/
theorem ends_of_short {n : Nat} (size : f.size s = some n) (short : s.length < n) :
    f.Ends s := by
  intro b block starts
  have same := Option.some.inj ((block.size_of_prefix starts).symm.trans size)
  have le := starts.length_le
  omega

theorem prefix_of_ends (framed : f.Framed blocks) (ends : f.Ends t) :
    ∀ {other}, f.Framed other → other.flatten <+: blocks.flatten ++ t → other <+: blocks := by
  induction blocks with
  | nil =>
      intro other hother starts
      cases other with
      | nil => exact List.prefix_refl []
      | cons c cs =>
          exact absurd ((List.prefix_append c cs.flatten).trans starts)
            (ends c (hother c List.mem_cons_self))
  | cons b bs ih =>
      intro other hother starts
      cases other with
      | nil => exact List.nil_prefix
      | cons c cs =>
          rw [List.flatten_cons, List.flatten_cons, List.append_assoc] at starts
          have same : c = b := (hother c List.mem_cons_self).unique
            (framed b List.mem_cons_self) ((List.prefix_append c cs.flatten).trans starts)
            (List.prefix_append b _)
          subst c
          have rest := ih (fun d hd => framed d (List.mem_cons_of_mem b hd))
            (fun d hd => hother d (List.mem_cons_of_mem b hd))
            ((List.prefix_append_right_inj b).mp starts)
          exact List.cons_prefix_cons.mpr ⟨rfl, rest⟩

theorem longest_of_ends (framed : f.Framed blocks) (ends : f.Ends t) :
    f.Longest (blocks.flatten ++ t) blocks where
  framed := framed
  starts := List.prefix_append _ _
  most _ hother starts := prefix_of_ends framed ends hother starts

theorem longest_of_framed (framed : f.Framed blocks) : f.Longest blocks.flatten blocks := by
  have whole := longest_of_ends framed ends_nil
  rwa [List.append_nil] at whole

theorem Longest.unique (h : f.Longest s blocks) (h' : f.Longest s other) : blocks = other := by
  have mine := h'.most blocks h.framed h.starts
  have theirs := h.most other h'.framed h'.starts
  exact mine.eq_of_length_le theirs.length_le

theorem Framed.concat (framed : f.Framed blocks) (block : f.IsBlock b) :
    f.Framed (blocks ++ [b]) := by
  intro c hc
  rcases List.mem_append.mp hc with old | new
  next => exact framed c old
  next => exact List.mem_singleton.mp new ▸ block

end Framing
end NxgtData
