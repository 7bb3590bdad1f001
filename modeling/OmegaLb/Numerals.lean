import Mathlib.Data.Nat.Init

/-! The numerals that definitions of several modules write over any field, by name. Nothing here
names a system. -/
namespace OmegaLb.Numerals

instance twoAtLeastTwo : Nat.AtLeastTwo 2 := ⟨Nat.le_refl 2⟩

instance tenAtLeastTwo : Nat.AtLeastTwo 10 := ⟨Nat.le_add_left 2 8⟩

instance hundredAtLeastTwo : Nat.AtLeastTwo 100 := ⟨Nat.le_add_left 2 98⟩

end OmegaLb.Numerals
