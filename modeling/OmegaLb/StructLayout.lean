import Mathlib.Data.List.TakeDrop
import Mathlib.Tactic.Ring

/-! C structs of unsigned scalars under natural alignment, little-endian. Padding bytes hold
whatever `filler` has at their offset. -/
namespace OmegaLb.StructLayout

def le : Nat → Nat → List UInt8
  | 0, _ => []
  | width + 1, value => UInt8.ofNat value :: le width (value / 256)

def readLe : List UInt8 → Nat
  | [] => 0
  | b :: rest => b.toNat + 256 * readLe rest

@[simp] theorem leLength (width value : Nat) : (le width value).length = width := by
  induction width generalizing value with
  | zero => rfl
  | succ width ih => simp [le, ih]

theorem readLeWritten {width value : Nat} (bounded : value < 256 ^ width) :
    readLe (le width value) = value := by
  induction width generalizing value with
  | zero => exact (Nat.lt_one_iff.mp bounded).symm
  | succ width ih =>
    have high : value / 256 < 256 ^ width :=
      Nat.div_lt_of_lt_mul (by rwa [Nat.mul_comm, ← Nat.pow_succ])
    rw [le, readLe, ih high, UInt8.toNat_ofNat']
    exact Nat.mod_add_div value 256

/-- A scalar, whose size is its alignment. -/
structure Member where
  width : Nat
  value : Nat
  bounded : value < 256 ^ width

def padding (width offset : Nat) : Nat := (width - offset % width) % width

def gap (filler : Nat → UInt8) (offset size : Nat) : List UInt8 :=
  (List.range size).map fun i => filler (offset + i)

def place (filler : Nat → UInt8) : Nat → List Member → List UInt8
  | _, [] => []
  | offset, m :: rest =>
    let pad := padding m.width offset
    gap filler offset pad ++ (le m.width m.value ++ place filler (offset + pad + m.width) rest)

/-- Where member `i` of a struct with these widths starts; past the last one, its end. -/
def offsetOf : Nat → List Nat → Nat → Nat
  | offset, [], _ => offset
  | offset, w :: _, 0 => offset + padding w offset
  | offset, w :: rest, i + 1 => offsetOf (offset + padding w offset + w) rest i

def widths (ms : List Member) : List Nat := ms.map Member.width

/-- What aligns the next element of an array. -/
def tailPadding (ws : List Nat) : Nat := padding (ws.foldr max 1) (offsetOf 0 ws ws.length)

def size (ws : List Nat) : Nat := offsetOf 0 ws ws.length + tailPadding ws

def encode (filler : Nat → UInt8) (ms : List Member) : List UInt8 :=
  place filler 0 ms ++ gap filler (offsetOf 0 (widths ms) ms.length) (tailPadding (widths ms))

@[simp] theorem gapLength (filler : Nat → UInt8) (offset size : Nat) :
    (gap filler offset size).length = size := by simp [gap]

theorem placeLength (filler : Nat → UInt8) (offset : Nat) (ms : List Member) :
    offset + (place filler offset ms).length = offsetOf offset (widths ms) ms.length := by
  induction ms generalizing offset with
  | nil => rfl
  | cons m rest ih =>
    have later := ih (offset + padding m.width offset + m.width)
    simp only [place, widths, List.map_cons, List.length_cons, offsetOf, List.length_append, gapLength,
      leLength] at later ⊢
    omega

theorem encodeLength (filler : Nat → UInt8) (ms : List Member) :
    (encode filler ms).length = size (widths ms) := by
  have placed := placeLength filler 0 ms
  have same : (widths ms).length = ms.length := List.length_map ..
  simp only [encode, size, List.length_append, gapLength, same]
  omega

theorem offsetGrows (offset : Nat) (ws : List Nat) (i : Nat) : offset ≤ offsetOf offset ws i := by
  induction ws generalizing offset i with
  | nil => simp [offsetOf]
  | cons w rest ih =>
    cases i with
    | zero => exact Nat.le_add_right _ _
    | succ i =>
      have later := ih (offset + padding w offset + w) i
      simp only [offsetOf]
      omega

theorem placeRead (filler : Nat → UInt8) (offset : Nat) {i : Nat} {ms : List Member} {m : Member}
    (at_ : ms[i]? = some m) : le m.width m.value <+:
      (place filler offset ms).drop (offsetOf offset (widths ms) i - offset) := by
  induction ms generalizing offset i with
  | nil => cases at_
  | cons first rest ih =>
    cases i with
    | zero =>
      have same : first = m := Option.some.inj at_
      have start : offsetOf offset (widths (first :: rest)) 0 - offset =
          (gap filler offset (padding first.width offset)).length := by
        simp [widths, offsetOf]
      subst same
      rw [start, place, List.drop_left]
      exact List.prefix_append _ _
    | succ i =>
      let next := offset + padding first.width offset + first.width
      have grows := offsetGrows next (widths rest) i
      have before : (gap filler offset (padding first.width offset) ++
          le first.width first.value).length = next - offset := by
        simp only [List.length_append, gapLength, leLength, next]
        omega
      have start : offsetOf offset (widths (first :: rest)) (i + 1) - offset =
          (next - offset) + (offsetOf next (widths rest) i - next) := by
        change offsetOf next (widths rest) i - offset = _
        have past : offset ≤ next := by omega
        omega
      have found := ih next at_
      rw [start, place, ← List.append_assoc, ← before, ← List.drop_drop, List.drop_left]
      exact found

theorem encodeRead (filler : Nat → UInt8) {i : Nat} {ms : List Member} {m : Member}
    (at_ : ms[i]? = some m) (trailing : List UInt8) :
    ((encode filler ms ++ trailing).take (offsetOf 0 (widths ms) i + m.width)).drop
      (offsetOf 0 (widths ms) i) = le m.width m.value := by
  obtain ⟨rest, shape⟩ := placeRead filler 0 at_
  rw [Nat.sub_zero] at shape
  rw [List.drop_take, Nat.add_sub_cancel_left, encode, List.append_assoc, List.drop_append, ← shape,
    List.append_assoc]
  exact List.take_left' (leLength ..)

end OmegaLb.StructLayout
