import Mathlib.Data.List.Lex
import Mathlib.Data.Nat.Notation
import Mathlib.Order.Defs.LinearOrder

/-!
Strings in the order JavaScript gives them, that of their UTF-16 code units.
-/
namespace NxgtData.CodeUnits

def units (c : Char) : List Nat :=
  if c.toNat < 0x10000 then [c.toNat]
  else [0xD800 + (c.toNat - 0x10000) / 0x400, 0xDC00 + (c.toNat - 0x10000) % 0x400]

def codeUnits (s : String) : List Nat := s.toList.flatMap units

theorem toNat_inj {c d : Char} (eq : c.toNat = d.toNat) : c = d := by
  rw [← Char.ofNat_toNat c, eq, Char.ofNat_toNat]

theorem plane (c : Char) : c.toNat < 0xD800 ∨ 0xDFFF < c.toNat ∧ c.toNat < 0x110000 := c.valid

theorem units_inj : ∀ {cs ds : List Char}, cs.flatMap units = ds.flatMap units → cs = ds
  | [], [], _ => rfl
  | [], d :: ds, eq => by
      rw [List.flatMap_nil, List.flatMap_cons, units] at eq
      split at eq <;> cases eq
  | c :: cs, [], eq => by
      rw [List.flatMap_nil, List.flatMap_cons, units] at eq
      split at eq <;> cases eq
  | c :: cs, d :: ds, eq => by
      rw [List.flatMap_cons, List.flatMap_cons, units, units] at eq
      have := plane c
      have := plane d
      split at eq <;> split at eq <;>
        simp only [List.cons_append, List.nil_append, List.cons.injEq] at eq
      · rw [toNat_inj eq.1, units_inj eq.2]
      · omega
      · omega
      · rw [toNat_inj (c := c) (d := d) (by omega), units_inj eq.2.2]

theorem codeUnits_inj {s t : String} (eq : codeUnits s = codeUnits t) : s = t :=
  String.toList_injective (units_inj eq)

/-- A character of the first plane is one unit. -/
theorem codeUnits_plane {s : String} (plane : ∀ c ∈ s.toList, c.toNat < 0x10000) :
    codeUnits s = s.toList.map Char.toNat := by
  unfold codeUnits
  generalize s.toList = cs at plane ⊢
  induction cs with
  | nil => rfl
  | cons c cs ih =>
      rw [List.flatMap_cons, List.map_cons, ih fun d mem => plane d (List.mem_cons_of_mem _ mem),
        units, if_pos (plane c List.mem_cons_self)]
      rfl

/-- `a <= b`. -/
def AtMost (s t : String) : Prop := codeUnits s ≤ codeUnits t

instance : DecidableRel AtMost := fun s t => inferInstanceAs (Decidable (codeUnits s ≤ codeUnits t))

instance : Std.Total AtMost := ⟨fun _ _ => le_total _ _⟩

instance : IsTrans String AtMost := ⟨fun _ _ _ => le_trans⟩

instance : Std.Antisymm AtMost := ⟨fun _ _ le ge => codeUnits_inj (le_antisymm le ge)⟩

/-- `a < b`. -/
def Less (s t : String) : Prop := codeUnits s < codeUnits t

instance : DecidableRel Less := fun s t => inferInstanceAs (Decidable (codeUnits s < codeUnits t))

theorem Less.trans {s t u : String} (h : Less s t) (h' : Less t u) : Less s u :=
  lt_trans (a := codeUnits s) h h'

end NxgtData.CodeUnits
